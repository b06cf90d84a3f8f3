/-
# `Pandos.Phase3.SwapLock` — `swapSem` is a lock

From the return of its `P(swapSem)` to its `V(swapSem)` a U-proc is inside,
and at most one is (`Run.locks`): `swapSem` starts at one, and only who is
inside does a `V`.  Each step of the system changes who is inside and who
waits in one of six ways (`Outcome.lockMove`).  A U-proc that the pager ends
vanishes from inside.
-/
import Pandos.Lib.Lock
import Pandos.Phase3.System

namespace Pandos.Phase3

open Semaphore

/-! ## Processes -/

namespace Sys

variable (k : Sys) (p : PcbPtr) (u : Uproc) (φ : Phase) (vm : Vm)

@[simp] theorem setVm_vm : (k.setVm vm).vm = vm := rfl
@[simp] theorem setVm_pool : (k.setVm vm).pool = k.pool := rfl
@[simp] theorem setVm_swapSem : (k.setVm vm).swapSem = k.swapSem := rfl
@[simp] theorem setVm_masterSem : (k.setVm vm).masterSem = k.masterSem := rfl
@[simp] theorem setVm_proc : (k.setVm vm).proc = k.proc := rfl
@[simp] theorem setVm_root : (k.setVm vm).root = k.root := rfl

@[simp] theorem setPhase_vm : (k.setPhase p u φ).vm = k.vm := rfl
@[simp] theorem setPhase_pool : (k.setPhase p u φ).pool = k.pool := rfl
@[simp] theorem setPhase_swapSem : (k.setPhase p u φ).swapSem = k.swapSem := rfl
@[simp] theorem setPhase_masterSem : (k.setPhase p u φ).masterSem = k.masterSem := rfl
@[simp] theorem setPhase_root : (k.setPhase p u φ).root = k.root := rfl

@[simp] theorem setPhase_self : (k.setPhase p u φ).proc p = some { u with phase := φ } :=
  Function.update_self ..

variable {k p u φ} in
/-- The process that has moved is where it has moved to. -/
theorem eq_of_setPhase {v : Uproc} (h : (k.setPhase p u φ).proc p = some v) :
    { u with phase := φ } = v := by
  rw [setPhase_self] at h
  exact Option.some.inj h

@[simp] theorem setPhase_of_ne {r : PcbPtr} (h : r ≠ p) :
    (k.setPhase p u φ).proc r = k.proc r := Function.update_of_ne h ..

variable {k p u φ} in
/-- Who is there after a move. -/
theorem of_setPhase {r : PcbPtr} {v : Uproc} (h : (k.setPhase p u φ).proc r = some v) :
    r = p ∧ { u with phase := φ } = v ∨ r ≠ p ∧ k.proc r = some v := by
  rcases eq_or_ne r p with rfl | hr
  · exact .inl ⟨rfl, eq_of_setPhase h⟩
  · exact .inr ⟨hr, (setPhase_of_ne _ _ _ _ hr).symm.trans h⟩

@[simp] theorem termProcess_self : (k.termProcess p).proc p = none := Function.update_self ..

@[simp] theorem termProcess_of_ne {r : PcbPtr} (h : r ≠ p) :
    (k.termProcess p).proc r = k.proc r := Function.update_of_ne h ..

variable {k p} in
/-- Who is there after the end of a process. -/
theorem of_termProcess {r : PcbPtr} {v : Uproc} (h : (k.termProcess p).proc r = some v) :
    r ≠ p ∧ k.proc r = some v := by
  rcases eq_or_ne r p with rfl | hr
  · rw [termProcess_self] at h
    cases h
  · exact ⟨hr, (termProcess_of_ne _ _ hr).symm.trans h⟩

end Sys

/-- Between the return of `P(swapSem)` and `V(swapSem)`. -/
def Phase.inside : Phase → Bool
  | .holding | .found _ | .paging _ _ _ | .mapped => true
  | .user | .acquiring | .waiting | .terminating | .deallocated | .notified | .stray => false

def Sys.Inside (k : Sys) (p : PcbPtr) : Prop := ∃ u, k.proc p = some u ∧ u.phase.inside = true

def Sys.Waits (k : Sys) (p : PcbPtr) : Prop := ∃ u, k.proc p = some u ∧ u.phase = .waiting

abbrev Sys.Locks (k : Sys) : Prop := k.swapSem.Locks k.Inside k.Waits

/-- How a step changes the lock. -/
inductive LockMove (k : Sys) : Event → Sys → Prop where
  | same {e k'} (hsem : k'.swapSem = k.swapSem) (hi : ∀ r, k'.Inside r ↔ k.Inside r)
      (hw : ∀ r, k'.Waits r ↔ k.Waits r) : LockMove k e k'
  | pass {e k' p} (hv : ¬ k.swapSem.value - 1 < 0) (hsem : k'.swapSem = k.swapSem.step (.down p))
      (hi : ∀ r, k'.Inside r ↔ k.Inside r ∨ r = p) (hw : ∀ r, k'.Waits r ↔ k.Waits r) :
      LockMove k e k'
  | wait {e k' p} (hv : k.swapSem.value - 1 < 0) (hsem : k'.swapSem = k.swapSem.step (.down p))
      (hp : ¬ k.Waits p) (hi : ∀ r, k'.Inside r ↔ k.Inside r)
      (hw : ∀ r, k'.Waits r ↔ k.Waits r ∨ r = p) : LockMove k e k'
  | leave {e k' p} (hp : k.Inside p) (hsem : k'.swapSem = k.swapSem.step .up)
      (hi : ∀ r, k'.Inside r ↔ k.swapSem.queue.head? = some r)
      (hw : ∀ r, k'.Waits r ↔ k.Waits r ∧ k.swapSem.queue.head? ≠ some r) : LockMove k e k'
  | vanish {k' p u} (hp : k.proc p = some u) (hu : u.phase = .holding)
      (hmiss : getMissingPageFromSupp (k.vm.supp u.supp) = none) (hsem : k'.swapSem = k.swapSem)
      (hi : ∀ r, k'.Inside r → k.Inside r) (hw : ∀ r, k'.Waits r ↔ k.Waits r) :
      LockMove k (.next p) k'
  | clear {e k'} (hroot : k.root = .returned)
      (hsem : k'.swapSem = k.swapSem.step (.drop fun _ => true)) (hproc : ∀ r, k'.proc r = none) :
      LockMove k e k'

section
variable {k k' : Sys} {p : PcbPtr} {u u' : Uproc} {e : Event}

theorem inside_iff (hp : k.proc p = some u) : k.Inside p ↔ u.phase.inside = true := by
  unfold Sys.Inside
  rw [hp]
  simp

theorem waits_iff (hp : k.proc p = some u) : k.Waits p ↔ u.phase = .waiting := by
  unfold Sys.Waits
  rw [hp]
  simp

theorem inside_of_proc {r : PcbPtr} (h : k'.proc r = k.proc r) : k'.Inside r ↔ k.Inside r := by
  unfold Sys.Inside
  rw [h]

theorem waits_of_proc {r : PcbPtr} (h : k'.proc r = k.proc r) : k'.Waits r ↔ k.Waits r := by
  unfold Sys.Waits
  rw [h]

theorem not_inside (hp : k.proc p = none) : ¬ k.Inside p := by
  rintro ⟨u, hu, -⟩
  rw [hp] at hu
  exact nomatch hu

theorem not_waits (hp : k.proc p = none) : ¬ k.Waits p := by
  rintro ⟨u, hu, -⟩
  rw [hp] at hu
  exact nomatch hu

/-- What a handler does to its process leaves it outside. -/
theorem Phase.ofFate_outside (excState : State) (f : Fate) :
    (Phase.ofFate excState f).inside = false ∧ Phase.ofFate excState f ≠ .waiting := by
  cases f with
  | sysTerminate | pages | returns => exact ⟨rfl, nofun⟩
  | serves s =>
      cases s with
      | terminateSupport | getTOD => exact ⟨rfl, nofun⟩
      | writeToPrinter | writeToTerminal | readFromTerminal =>
          simp only [Phase.ofFate]
          split
          · exact ⟨rfl, nofun⟩
          · exact ⟨rfl, nofun⟩

theorem wakeSwap_nil (hq : k.swapSem.queue = []) : k.wakeSwap = k := by
  simp only [Sys.wakeSwap, hq]

theorem wakeSwap_cons {r : PcbPtr} {l : List PcbPtr} {v : Uproc} (hq : k.swapSem.queue = r :: l)
    (hr : k.proc r = some v) : k.wakeSwap = k.setPhase r v .holding := by
  simp only [Sys.wakeSwap, hq, hr]
  rfl

/-! ## Steps -/

namespace LockMove

/-- A process moves, and stays inside or outside. -/
theorem move (hp : k.proc p = some u) (hsem : k'.swapSem = k.swapSem)
    (hself : k'.proc p = some u') (hother : ∀ r, r ≠ p → k'.proc r = k.proc r)
    (hi : u'.phase.inside = u.phase.inside)
    (hw : u'.phase ≠ .waiting ∧ u.phase ≠ .waiting) : LockMove k e k' := by
  refine .same hsem (fun r => ?_) fun r => ?_
  · rcases eq_or_ne r p with rfl | hr
    · rw [inside_iff hself, inside_iff hp, hi]
    · exact inside_of_proc (hother r hr)
  · rcases eq_or_ne r p with rfl | hr
    · rw [waits_iff hself, waits_iff hp]
      exact iff_of_false hw.1 hw.2
    · exact waits_of_proc (hother r hr)

/-- A process moves while it is inside. -/
theorem within {φ : Phase} {vm : Vm} (hp : k.proc p = some u) (hu : u.phase.inside = true)
    (hφ : φ.inside = true) : LockMove k e ((k.setVm vm).setPhase p u φ) := by
  have hout : ∀ {ψ : Phase}, ψ.inside = true → ψ ≠ .waiting := by
    rintro ψ hψ rfl
    exact nomatch hψ
  exact .move hp rfl (Sys.setPhase_self ..) (fun r hr => Sys.setPhase_of_ne _ _ _ _ hr)
    (hφ.trans hu.symm) ⟨hout hφ, hout hu⟩

theorem stage {φ : Phase} (hp : k.proc p = some u) (hu : u.phase.inside = true)
    (hφ : φ.inside = true) : LockMove k e (k.setPhase p u φ) :=
  show LockMove k e ((k.setVm k.vm).setPhase p u φ) from within hp hu hφ

/-- A process moves while it is outside. -/
theorem without {φ : Phase} (hp : k.proc p = some u) (hsem : k'.swapSem = k.swapSem)
    (hself : k'.proc p = some { u with phase := φ })
    (hother : ∀ r, r ≠ p → k'.proc r = k.proc r)
    (hu : u.phase.inside = false ∧ u.phase ≠ .waiting) (hφ : φ.inside = false ∧ φ ≠ .waiting) :
    LockMove k e k' :=
  .move hp hsem hself hother (hφ.1.trans hu.1.symm) ⟨hφ.2, hu.2⟩

/-- A process begins or ends outside. -/
theorem other (hsem : k'.swapSem = k.swapSem) (hother : ∀ r, r ≠ p → k'.proc r = k.proc r)
    (hp : ¬ k.Inside p ∧ ¬ k.Waits p) (hp' : ¬ k'.Inside p ∧ ¬ k'.Waits p) : LockMove k e k' := by
  refine .same hsem (fun r => ?_) fun r => ?_
  · rcases eq_or_ne r p with rfl | hr
    · exact iff_of_false hp'.1 hp.1
    · exact inside_of_proc (hother r hr)
  · rcases eq_or_ne r p with rfl | hr
    · exact iff_of_false hp'.2 hp.2
    · exact waits_of_proc (hother r hr)

theorem create {asid : Word} {supp : SuppPtr} (hp : k.proc p = none)
    (hsem : k'.swapSem = k.swapSem)
    (hproc : k'.proc = Function.update k.proc p (some ⟨asid, supp, .user⟩)) :
    LockMove k e k' := by
  have hself : k'.proc p = some ⟨asid, supp, .user⟩ := by
    rw [hproc]
    exact Function.update_self ..
  refine .other hsem (fun r hr => ?_) ⟨not_inside hp, not_waits hp⟩ ⟨?_, ?_⟩
  · rw [hproc]
    exact Function.update_of_ne hr ..
  · rw [inside_iff hself]
    nofun
  · rw [waits_iff hself]
    nofun

theorem ends (hp : k.proc p = some u) (hu : u.phase.inside = false ∧ u.phase ≠ .waiting) :
    LockMove k e (k.termProcess p) := by
  have hself := k.termProcess_self p
  refine .other rfl (fun r hr => k.termProcess_of_ne p hr) ⟨?_, ?_⟩
    ⟨not_inside hself, not_waits hself⟩
  · rw [inside_iff hp, hu.1]
    nofun
  · rw [waits_iff hp]
    exact hu.2

/-- `P(swapSem)` -/
theorem passeren (hp : k.proc p = some u) (hu : u.phase = .acquiring) :
    LockMove k e (k.passerenSwap p u) := by
  have hself : (k.passerenSwap p u).proc p = some { u with
      phase := if k.swapSem.value - 1 < 0 then .waiting else .holding } := Sys.setPhase_self ..
  have hother : ∀ r, r ≠ p → (k.passerenSwap p u).proc r = k.proc r := fun r hr =>
    Sys.setPhase_of_ne _ _ _ _ hr
  have hout : ¬ k.Inside p ∧ ¬ k.Waits p := by
    rw [inside_iff hp, waits_iff hp, hu]
    exact ⟨nofun, nofun⟩
  by_cases hv : k.swapSem.value - 1 < 0
  · rw [if_pos hv] at hself
    refine .wait hv rfl hout.2 (fun r => ?_) fun r => ?_
    · rcases eq_or_ne r p with rfl | hr
      · rw [inside_iff hself]
        exact iff_of_false nofun hout.1
      · exact inside_of_proc (hother r hr)
    · rcases eq_or_ne r p with rfl | hr
      · rw [waits_iff hself]
        exact iff_of_true rfl (.inr rfl)
      · rw [waits_of_proc (hother r hr), or_iff_left hr]
  · rw [if_neg hv] at hself
    refine .pass hv rfl (fun r => ?_) fun r => ?_
    · rcases eq_or_ne r p with rfl | hr
      · rw [inside_iff hself]
        exact iff_of_true rfl (.inr rfl)
      · rw [inside_of_proc (hother r hr), or_iff_left hr]
    · rcases eq_or_ne r p with rfl | hr
      · rw [waits_iff hself]
        exact iff_of_false nofun hout.2
      · exact waits_of_proc (hother r hr)

/-- `V(swapSem)` -/
theorem verhogen (hl : k.Locks) (hp : k.proc p = some u) (hu : u.phase = .mapped) :
    LockMove k e (k.verhogenSwap p u) := by
  have hin : k.Inside p := by
    rw [inside_iff hp, hu]
    rfl
  have hout : ¬ k.Waits p := by
    rw [waits_iff hp, hu]
    nofun
  have hself : (k.verhogenSwap p u).proc p = some { u with phase := .user } :=
    Sys.setPhase_self ..
  have hother : ∀ r, r ≠ p → (k.verhogenSwap p u).proc r = k.wakeSwap.proc r := fun r hr =>
    Sys.setPhase_of_ne _ _ _ _ hr
  -- the first of the queue waits, and is woken
  have hwake : ∀ r, r ≠ p → (k.wakeSwap.Inside r ↔ k.swapSem.queue.head? = some r) ∧
      (k.wakeSwap.Waits r ↔ k.Waits r ∧ k.swapSem.queue.head? ≠ some r) := by
    intro r hr
    have hnot : ¬ k.Inside r := fun h => hr (hl.unique h hin)
    cases hq : k.swapSem.queue with
    | nil =>
        rw [wakeSwap_nil hq]
        simp [hnot]
    | cons z l =>
        obtain ⟨v, hv, hwait⟩ := (hl.queued z).mp (by rw [hq]; exact List.mem_cons_self)
        rw [wakeSwap_cons hq hv]
        simp only [List.head?_cons, Option.some.injEq]
        rcases eq_or_ne r z with rfl | hz
        · have hwoken := k.setPhase_self r v .holding
          rw [inside_iff hwoken, waits_iff hwoken]
          exact ⟨iff_of_true rfl rfl, iff_of_false nofun fun h => h.2 rfl⟩
        · have hkept := k.setPhase_of_ne z v .holding hz
          rw [inside_of_proc hkept, waits_of_proc hkept]
          exact ⟨iff_of_false hnot hz.symm, (and_iff_left fun h => hz (Option.some.inj h).symm).symm⟩
  have hhead : k.swapSem.queue.head? ≠ some p := fun h =>
    hout ((hl.queued p).mp (List.mem_of_head? h))
  refine .leave hin rfl (fun r => ?_) fun r => ?_
  · rcases eq_or_ne r p with rfl | hr
    · rw [inside_iff hself]
      exact iff_of_false nofun hhead
    · rw [inside_of_proc (hother r hr), (hwake r hr).1]
  · rcases eq_or_ne r p with rfl | hr
    · rw [waits_iff hself]
      exact iff_of_false nofun fun h => hout h.1
    · rw [waits_of_proc (hother r hr), (hwake r hr).2]

theorem locks (h : LockMove k e k') (hl : k.Locks) : k'.Locks := by
  cases h with
  | same hsem hi hw =>
      show k'.swapSem.Locks _ _
      rw [hsem]
      exact hl.vanish (fun r => (hi r).mp) hw
  | pass hv hsem hi hw =>
      show k'.swapSem.Locks _ _
      rw [hsem]
      exact hl.pass hv hi hw
  | wait hv hsem hp hi hw =>
      show k'.swapSem.Locks _ _
      rw [hsem]
      exact hl.wait hv hp hi hw
  | leave hp hsem hi hw =>
      show k'.swapSem.Locks _ _
      rw [hsem]
      exact hl.leave hp hi hw
  | vanish _ _ _ hsem hi hw =>
      show k'.swapSem.Locks _ _
      rw [hsem]
      exact hl.vanish hi hw
  | clear _ hsem hproc =>
      show k'.swapSem.Locks _ _
      rw [hsem]
      exact hl.clear (fun r => not_inside (hproc r)) fun r => not_waits (hproc r)

end LockMove

theorem Outcome.lockMove (h : Outcome k e k') (hl : k.Locks) : LockMove k e k' := by
  cases h with
  | created _ _ _ hp | spawned _ _ hp => exact .create hp rfl rfl
  | allCreated _ _ | rootDown _ _ | rootReturns _ _ | store _ _ _ | refill _ _ _ _ _ =>
      exact .same rfl (fun r => inside_of_proc rfl) fun r => waits_of_proc rfl
  | rootEnds hroot => exact .clear hroot rfl fun _ => rfl
  | refillEnds hp hu _ _ _ => exact .ends hp (by rw [hu]; exact ⟨rfl, nofun⟩)
  | gone hp hu => exact .ends hp (by rw [hu]; exact ⟨rfl, nofun⟩)
  | fault hp hu =>
      exact .without hp rfl (Sys.setPhase_self ..) (fun r hr => Sys.setPhase_of_ne _ _ _ _ hr)
        (by rw [hu]; exact ⟨rfl, nofun⟩) (Phase.ofFate_outside ..)
  | except hp hu =>
      exact .without hp rfl (Sys.setPhase_self ..) (fun r hr => Sys.setPhase_of_ne _ _ _ _ hr)
        (by rw [hu]; exact ⟨rfl, nofun⟩) (Phase.ofFate_outside ..)
  | dealloc hp hu | notify hp hu =>
      exact .without hp rfl (Sys.setPhase_self ..) (fun r hr => Sys.setPhase_of_ne _ _ _ _ hr)
        (by rw [hu]; exact ⟨rfl, nofun⟩) ⟨rfl, nofun⟩
  | acquire hp hu => exact .passeren hp hu
  | @missing p u hp hu hi =>
      refine .vanish hp hu hi rfl (fun r hr => ?_) fun r => ?_
      · rcases eq_or_ne r p with rfl | hne
        · exact absurd hr (not_inside (k.termProcess_self r))
        · exact (inside_of_proc (k.termProcess_of_ne p hne)).mp hr
      · rcases eq_or_ne r p with rfl | hne
        · refine iff_of_false (not_waits (k.termProcess_self r)) ?_
          rw [waits_iff hp, hu]
          nofun
        · exact waits_of_proc (k.termProcess_of_ne p hne)
  | find hp hu _ | skip hp hu _ =>
      exact .stage hp (by rw [hu]; rfl) rfl
  | choose hp hu | evict hp hu _ _ | writeOut hp hu _ | readIn hp hu | record hp hu | map hp hu
  | wrote hp hu | loaded hp hu => exact .within hp (by rw [hu]; rfl) rfl
  | release hp hu => exact .verhogen hl hp hu

theorem Machine.start_locks (m : Machine) : m.start.Locks :=
  Sem.Locks.start.vanish (fun _ h => not_inside rfl h) fun _ => iff_of_false (not_waits rfl) id

theorem Run.locks {m : Machine} {tr : List Entry} (h : Run m tr k) : k.Locks :=
  h.invariant (P := fun _ k => k.Locks) (G := fun _ => True) (fun _ _ => trivial) m.start_locks
    fun hl hs _ => ((step_outcome hs).lockMove hl).locks hl

end

end Pandos.Phase3
