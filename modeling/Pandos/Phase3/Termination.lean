/-
# `Pandos.Phase3.Termination` — how U-procs end

A U-proc ends in `terminate_support`, which calls `dealloc_supp`, does a `V` on
`masterSem` and only then `TERMPROCESS`; or it is ended where
`getMissingPage` finds no page, which does neither, and in the pager leaves
`swapSem` down.  Where that does not happen each U-proc that has ended has
called each of the two once (`Accounts`), so that in the end the root process
returns from its eight `P`s (`terminates_in_order`).
-/
import Mathlib.Algebra.BigOperators.Group.Finset.Piecewise
import Mathlib.Algebra.Order.BigOperators.Group.Finset
import Pandos.Phase3.Coherence

namespace Pandos.Phase3

open Semaphore

/-! ## Calls -/

/-- The next step of a U-proc with the ASID `a` that is in the phase `φ`. -/
def takes (φ : Phase) (a : Word) (x : Entry) : Bool :=
  match x.event with
  | .next p => (x.before.proc p).any fun u => u.phase = φ ∧ u.asid = a
  | .root _ | .spawn _ _ | .store _ _ _ _ | .refill _ _ | .fault _ _ | .except _ _
  | .flashDone _ _ => false

/-- How often the U-proc with the ASID `a` has called `dealloc_supp` and
`notifyTerminated`. -/
def calls (a : Word) (tr : List Entry) : Nat × Nat :=
  (tr.countP (takes .terminating a), tr.countP (takes .deallocated a))

/-- Which of these a U-proc has called in a phase. -/
def Phase.called : Phase → Nat × Nat
  | .deallocated => (1, 0)
  | .notified => (1, 1)
  | .user | .acquiring | .waiting | .holding | .found _ | .paging _ _ _ | .mapped | .terminating
  | .stray => (0, 0)

/-- The ASID of the `n`-th U-proc. -/
def asidOf (n : Fin uprocMax) : Word := BitVec.ofNat 32 (n + 1)

/-- The `V`s `masterSem` has received. -/
def received (tr : List Entry) : Nat :=
  tr.countP fun x => decide (∃ n, takes .deallocated (asidOf n) x = true)

/-- The `P`s of the root process, the one it waits in included. -/
def Root.downs : Root → Nat
  | .creating _ => 0
  | .waiting i => i
  | .blocked i => i + 1
  | .returned | .ended => uprocMax

/-- Every address the pager or the refill handler looks up is in the address space. -/
def Finds (x : Entry) : Prop :=
  (∀ p badVAddr u, x.event = .refill p badVAddr → x.before.proc p = some u →
    getMissingPage (x.before.vm.supp u.supp) badVAddr ≠ none) ∧
  ∀ p u, x.event = .next p → x.before.proc p = some u → u.phase = .holding →
    getMissingPageFromSupp (x.before.vm.supp u.supp) ≠ none

/-- The U-proc with the ASID `a` has been created, and is gone. -/
def Sys.Ended (k : Sys) (a : Word) : Prop :=
  a.toNat ≤ k.root.created ∧ ∀ p u, k.proc p = some u → u.asid ≠ a

/-! ## Steps -/

/-- The step is not one of the calls. -/
def Quiet (x : Entry) : Prop :=
  ∀ a, takes .terminating a x = false ∧ takes .deallocated a x = false

/-- How a step changes who is there, and how far the root process is. -/
inductive LifeMove (k : Sys) : Event → Sys → Prop where
  | keep {e k'} (hsem : k'.masterSem = k.masterSem) (hroot : k'.root = k.root)
      (hold : ∀ r v, k'.proc r = some v → ∃ u, k.proc r = some u ∧ u.asid = v.asid ∧
        v.phase.called = u.phase.called)
      (hnew : ∀ r u, k.proc r = some u → ∃ v, k'.proc r = some v ∧ v.asid = u.asid)
      (hquiet : Quiet ⟨k, e, k'⟩) : LifeMove k e k'
  | dealloc {k' p u} (hp : k.proc p = some u) (hu : u.phase = .terminating)
      (hsem : k'.masterSem = k.masterSem) (hroot : k'.root = k.root)
      (hproc : k'.proc = (k.setPhase p u .deallocated).proc) : LifeMove k (.next p) k'
  | notify {p u} (hp : k.proc p = some u) (hu : u.phase = .deallocated) :
      LifeMove k (.next p) (k.notifyTerminated.setPhase p u .notified)
  | gone {p u} (hp : k.proc p = some u) (hu : u.phase = .notified) :
      LifeMove k (.next p) (k.termProcess p)
  | create {p i k' supp} (hroot : k.root = .creating i) (hi : i < uprocMax)
      (hp : k.proc p = none) (hsem : k'.masterSem = k.masterSem)
      (hroot' : k'.root = .creating (i + 1))
      (hproc : k'.proc = Function.update k.proc p (some ⟨BitVec.ofNat 32 (i + 1), supp, .user⟩)) :
      LifeMove k (.root p) k'
  | allCreated {p i} (hroot : k.root = .creating i) (hi : ¬ i < uprocMax) :
      LifeMove k (.root p) { k with root := .waiting 0 }
  | down {p i} (hroot : k.root = .waiting i) (hi : i < uprocMax) :
      LifeMove k (.root p) { k with
        masterSem := k.masterSem.step (.down ())
        root := if k.masterSem.value - 1 < 0 then .blocked i else .waiting (i + 1) }
  | returns {p i} (hroot : k.root = .waiting i) (hi : ¬ i < uprocMax) :
      LifeMove k (.root p) { k with root := .returned }
  | ends {p} (hroot : k.root = .returned) : LifeMove k (.root p) k.termAll

section
variable {k k' : Sys} {p : PcbPtr} {u : Uproc} {e : Event} {a : Word} {tr : List Entry}

theorem takes_next {φ : Phase} (hp : k.proc p = some u) :
    takes φ a ⟨k, .next p, k'⟩ = decide (u.phase = φ ∧ u.asid = a) := by
  simp [takes, hp]

theorem quiet_next (hp : k.proc p = some u) (hu : u.phase ≠ .terminating ∧ u.phase ≠ .deallocated) :
    Quiet ⟨k, .next p, k'⟩ := by
  intro a
  rw [takes_next hp, takes_next hp, decide_eq_false_iff_not, decide_eq_false_iff_not]
  exact ⟨fun h => hu.1 h.1, fun h => hu.2 h.1⟩

/-- Who waits for the lock is still there when it is woken. -/
theorem wakeSwap_keeps (hl : k.Locks) {r : PcbPtr} (hr : k.proc r = some u) :
    ∃ v, k.wakeSwap.proc r = some v ∧ v.asid = u.asid := by
  cases hq : k.swapSem.queue with
  | nil =>
      rw [wakeSwap_nil hq]
      exact ⟨u, hr, rfl⟩
  | cons z l =>
      obtain ⟨w, hw, -⟩ := (hl.queued z).mp (by rw [hq]; exact List.mem_cons_self)
      rw [wakeSwap_cons hq hw]
      rcases eq_or_ne r z with rfl | hz
      · obtain rfl := Option.some.inj (hr.symm.trans hw)
        exact ⟨_, k.setPhase_self r u .holding, rfl⟩
      · exact ⟨u, (k.setPhase_of_ne z w .holding hz).trans hr, rfl⟩

namespace LifeMove

theorem stay (hsem : k'.masterSem = k.masterSem) (hroot : k'.root = k.root)
    (hproc : k'.proc = k.proc) (hquiet : Quiet ⟨k, e, k'⟩) : LifeMove k e k' := by
  refine .keep hsem hroot (fun r v hv => ⟨v, ?_, rfl, rfl⟩) (fun r u hu => ⟨u, ?_, rfl⟩) hquiet
  · rw [← hproc, hv]
  · rw [hproc, hu]

/-- A U-proc moves, but not in `terminate_support`. -/
theorem move {φ : Phase} (hp : k.proc p = some u) (hsem : k'.masterSem = k.masterSem)
    (hroot : k'.root = k.root) (hproc : k'.proc = (k.setPhase p u φ).proc)
    (hφ : φ.called = u.phase.called) (hquiet : Quiet ⟨k, e, k'⟩) : LifeMove k e k' := by
  refine .keep hsem hroot (fun r v hv => ?_) (fun r w hw => ?_) hquiet
  · rw [hproc] at hv
    rcases Sys.of_setPhase hv with ⟨rfl, rfl⟩ | ⟨-, hv⟩
    · exact ⟨u, hp, rfl, hφ⟩
    · exact ⟨v, hv, rfl, rfl⟩
  · rw [hproc]
    rcases eq_or_ne r p with rfl | hr
    · obtain rfl := Option.some.inj (hp.symm.trans hw)
      exact ⟨_, k.setPhase_self r u φ, rfl⟩
    · exact ⟨w, (k.setPhase_of_ne p u φ hr).trans hw, rfl⟩

theorem release (hl : k.Locks) (hp : k.proc p = some u) (hu : u.phase = .mapped) :
    LifeMove k (.next p) (k.verhogenSwap p u) := by
  have hquiet : Quiet ⟨k, .next p, k.verhogenSwap p u⟩ :=
    quiet_next hp (by rw [hu]; exact ⟨nofun, nofun⟩)
  refine .keep rfl rfl (fun r v hv => ?_) (fun r w hw => ?_) hquiet
  · rcases verhogenSwap_proc hl hv with ⟨rfl, rfl⟩ | ⟨-, h | ⟨w, hw, hwait, rfl⟩⟩
    · exact ⟨u, hp, rfl, by rw [hu]; rfl⟩
    · exact ⟨v, h, rfl, rfl⟩
    · exact ⟨w, hw, rfl, by rw [hwait]; rfl⟩
  · rcases eq_or_ne r p with rfl | hr
    · obtain rfl := Option.some.inj (hp.symm.trans hw)
      exact ⟨_, Sys.setPhase_self _ r u .user, rfl⟩
    · obtain ⟨v, hv, ha⟩ := wakeSwap_keeps hl hw
      exact ⟨v, (Sys.setPhase_of_ne _ _ _ _ hr).trans hv, ha⟩

end LifeMove

/-- No handler is part of `terminate_support`. -/
theorem Phase.ofFate_called (excState : State) (f : Fate) :
    (Phase.ofFate excState f).called = (0, 0) := by
  cases f with
  | sysTerminate | pages | returns => rfl
  | serves s =>
      cases s with
      | terminateSupport | getTOD => rfl
      | writeToPrinter | writeToTerminal | readFromTerminal =>
          simp only [Phase.ofFate]
          split
          · rfl
          · rfl

theorem quiet_of_event (h : ∀ p, e ≠ .next p) : Quiet ⟨k, e, k'⟩ := by
  intro a
  cases e with
  | next p => exact absurd rfl (h p)
  | root _ | spawn _ _ | store _ _ _ _ | refill _ _ | fault _ _ | except _ _ | flashDone _ _ =>
      exact ⟨rfl, rfl⟩

theorem Outcome.lifeMove (h : Outcome k e k') (hl : k.Locks) (hs : Started ⟨k, e, k'⟩)
    (hf : Finds ⟨k, e, k'⟩) : LifeMove k e k' := by
  cases h with
  | @created p i supp pool hroot hi _ hp => exact .create hroot hi hp rfl rfl rfl
  | spawned _ _ _ => exact absurd rfl (hs _ _)
  | allCreated hroot hi => exact .allCreated hroot hi
  | rootDown hroot hi => exact .down hroot hi
  | rootReturns hroot hi => exact .returns hroot hi
  | rootEnds hroot => exact .ends hroot
  | store _ _ _ | refill _ _ _ _ _ => exact .stay rfl rfl rfl (quiet_of_event nofun)
  | refillEnds hp _ _ _ hi => exact absurd hi (hf.1 _ _ _ rfl hp)
  | fault hp hu | except hp hu =>
      refine .move hp rfl rfl rfl ?_ (quiet_of_event nofun)
      rw [hu]
      exact Phase.ofFate_called ..
  | @acquire p u hp hu =>
      refine .move hp rfl rfl rfl ?_ (quiet_next hp (by rw [hu]; exact ⟨nofun, nofun⟩))
      rw [hu]
      split
      · rfl
      · rfl
  | missing hp hu hi => exact absurd hi (hf.2 _ _ rfl hp hu)
  | find hp hu _ | choose hp hu | evict hp hu _ _ | skip hp hu _ | writeOut hp hu _ | readIn hp hu
  | record hp hu | map hp hu =>
      exact .move hp rfl rfl rfl (by rw [hu]; rfl)
        (quiet_next hp (by rw [hu]; exact ⟨nofun, nofun⟩))
  | release hp hu => exact .release hl hp hu
  | dealloc hp hu => exact .dealloc hp hu rfl rfl rfl
  | notify hp hu => exact .notify hp hu
  | gone hp hu => exact .gone hp hu
  | wrote hp hu | loaded hp hu =>
      exact .move hp rfl rfl rfl (by rw [hu]; rfl) (quiet_of_event nofun)

/-! ## Counting -/

theorem asidOf_toNat (n : Fin uprocMax) : (asidOf n).toNat = n + 1 := by
  have hn : (n : Nat) < 8 := n.isLt
  rw [asidOf, BitVec.toNat_ofNat]
  omega

theorem asidOf_inj {n n' : Fin uprocMax} (h : asidOf n = asidOf n') : n = n' := by
  have htoNat := congrArg BitVec.toNat h
  rw [asidOf_toNat, asidOf_toNat] at htoNat
  exact Fin.ext (by omega)

theorem calls_snoc (x : Entry) : calls a (tr ++ [x]) =
    ((calls a tr).1 + (takes .terminating a x).toNat,
      (calls a tr).2 + (takes .deallocated a x).toNat) := by
  simp only [calls, List.countP_append, List.countP_singleton]
  cases takes .terminating a x with
  | false | true =>
      cases takes .deallocated a x with
      | false | true => rfl

theorem calls_quiet {x : Entry} (hx : Quiet x) : calls a (tr ++ [x]) = calls a tr := by
  rw [calls_snoc, (hx a).1, (hx a).2]
  rfl

theorem received_quiet {x : Entry} (hx : Quiet x) : received (tr ++ [x]) = received tr := by
  simp [received, (hx _).2]

theorem calls_dealloc (hp : k.proc p = some u) (hu : u.phase = .terminating) :
    calls a (tr ++ [⟨k, .next p, k'⟩]) =
      if u.asid = a then ((calls a tr).1 + 1, (calls a tr).2) else calls a tr := by
  rw [calls_snoc, takes_next hp, takes_next hp, hu]
  split
  next ha => simp [ha]
  next ha => simp [ha]

theorem calls_notify (hp : k.proc p = some u) (hu : u.phase = .deallocated) :
    calls a (tr ++ [⟨k, .next p, k'⟩]) =
      if u.asid = a then ((calls a tr).1, (calls a tr).2 + 1) else calls a tr := by
  rw [calls_snoc, takes_next hp, takes_next hp, hu]
  split
  next ha => simp [ha]
  next ha => simp [ha]

theorem received_dealloc (hp : k.proc p = some u) (hu : u.phase = .terminating) :
    received (tr ++ [⟨k, .next p, k'⟩]) = received tr := by
  simp [received, takes_next hp, hu]

theorem received_notify (hp : k.proc p = some u) (hu : u.phase = .deallocated)
    (ha : UprocAsid u.asid) : received (tr ++ [⟨k, .next p, k'⟩]) = received tr + 1 := by
  obtain ⟨n, hn⟩ := ha.exists_fin
  have hsome : ∃ n, u.asid = asidOf n := ⟨n, hn⟩
  simp [received, takes_next hp, hu, hsome]

/-! ## Accounts -/

/-- What the U-procs have called so far. -/
structure Accounts (tr : List Entry) (k : Sys) : Prop where
  created : k.root.created ≤ uprocMax
  asid : ∀ {p u}, k.proc p = some u → UprocAsid u.asid ∧ u.asid.toNat ≤ k.root.created
  inj : ∀ {p r u v}, k.proc p = some u → k.proc r = some v → u.asid = v.asid → p = r
  live : ∀ {p u}, k.proc p = some u → calls u.asid tr = u.phase.called
  unborn : ∀ a, k.root.created < a.toNat → calls a tr = (0, 0)
  ended : ∀ a, UprocAsid a → k.Ended a → calls a tr = (1, 1)
  received : received tr = ∑ n, (calls (asidOf n) tr).2

/-- The semaphore of the root process. -/
structure RootInv (tr : List Entry) (k : Sys) : Prop where
  value : k.masterSem.value = (received tr : Int) - k.root.downs
  blocked : ∀ i, k.root = .blocked i → i < uprocMax ∧ k.masterSem.value = -1 ∧
    k.masterSem.queue = [()]
  passed : (∀ i, k.root ≠ .blocked i) → 0 ≤ k.masterSem.value ∧ k.masterSem.queue = []
  bound : ∀ i, k.root = .waiting i → i ≤ uprocMax

namespace Accounts

/-- Nobody calls anything, and the same U-procs are there. -/
theorem quiet (h : Accounts tr k) (hx : Quiet ⟨k, e, k'⟩)
    (hroot : k'.root.created = k.root.created)
    (hold : ∀ r v, k'.proc r = some v → ∃ u, k.proc r = some u ∧ u.asid = v.asid ∧
      v.phase.called = u.phase.called)
    (hended : ∀ a, k'.Ended a → k.Ended a ∨ calls a tr = (1, 1)) :
    Accounts (tr ++ [⟨k, e, k'⟩]) k' where
  created := hroot.trans_le h.created
  asid hv := by
    obtain ⟨u, hu, ha, -⟩ := hold _ _ hv
    rw [hroot, ← ha]
    exact h.asid hu
  inj hv hw heq := by
    obtain ⟨u, hu, ha, -⟩ := hold _ _ hv
    obtain ⟨u', hu', ha', -⟩ := hold _ _ hw
    exact h.inj hu hu' (ha.trans (heq.trans ha'.symm))
  live hv := by
    obtain ⟨u, hu, ha, hcalled⟩ := hold _ _ hv
    rw [calls_quiet hx, hcalled, ← ha]
    exact h.live hu
  unborn a ha := by
    rw [calls_quiet hx]
    exact h.unborn a (hroot ▸ ha)
  ended a ha hend := by
    rw [calls_quiet hx]
    rcases hended a hend with hend | hcalls
    · exact h.ended a ha hend
    · exact hcalls
  received := by
    simp only [received_quiet hx, calls_quiet hx]
    exact h.received

theorem same (h : Accounts tr k) (hx : Quiet ⟨k, e, k'⟩)
    (hroot : k'.root.created = k.root.created) (hproc : k'.proc = k.proc) :
    Accounts (tr ++ [⟨k, e, k'⟩]) k' := by
  refine h.quiet hx hroot (fun r v hv => ⟨v, ?_, rfl, rfl⟩) fun a ha => .inl ?_
  · rw [← hproc, hv]
  · rw [Sys.Ended, hproc, hroot] at ha
    exact ha

/-- One call of `p`. -/
theorem call {φ : Phase} (h : Accounts tr k) (hp : k.proc p = some u)
    (hproc : k'.proc = (k.setPhase p u φ).proc) (hroot : k'.root.created = k.root.created)
    (hcalls : ∀ a, calls a (tr ++ [⟨k, e, k'⟩]) = if u.asid = a then φ.called else calls a tr)
    (hreceived : Phase3.received (tr ++ [⟨k, e, k'⟩]) =
      ∑ n, (calls (asidOf n) (tr ++ [⟨k, e, k'⟩])).2) :
    Accounts (tr ++ [⟨k, e, k'⟩]) k' := by
  have hold : ∀ {r v}, k'.proc r = some v → r = p ∧ v = { u with phase := φ } ∨
      r ≠ p ∧ k.proc r = some v := by
    intro r v hv
    rw [hproc] at hv
    rcases eq_or_ne r p with rfl | hr
    · exact .inl ⟨rfl, (Option.some.inj ((k.setPhase_self r u φ).symm.trans hv)).symm⟩
    · exact .inr ⟨hr, (k.setPhase_of_ne p u φ hr).symm.trans hv⟩
  have hself : k'.proc p = some { u with phase := φ } := by
    rw [hproc, Sys.setPhase_self]
  constructor
  case created => exact hroot.trans_le h.created
  case asid =>
    intro r v hv
    rw [hroot]
    have hasid := h.asid hp
    rcases hold hv with ⟨-, rfl⟩ | ⟨-, hv⟩
    · exact hasid
    · exact h.asid hv
  case inj =>
    intro r t v w hv hw heq
    rcases hold hv with ⟨hr, rfl⟩ | ⟨-, hv⟩
    · rcases hold hw with ⟨ht, -⟩ | ⟨-, hw⟩
      · exact hr.trans ht.symm
      · exact hr.trans (h.inj hp hw heq)
    · rcases hold hw with ⟨ht, rfl⟩ | ⟨-, hw⟩
      · exact (h.inj hv hp heq).trans ht.symm
      · exact h.inj hv hw heq
  case live =>
    intro r v hv
    rcases hold hv with ⟨-, rfl⟩ | ⟨hr, hv⟩
    · rw [hcalls, if_pos rfl]
    · rw [hcalls, if_neg fun ha => hr (h.inj hv hp ha.symm)]
      exact h.live hv
  case unborn =>
    intro a ha
    rw [hroot] at ha
    rw [hcalls, if_neg]
    · exact h.unborn a ha
    · rintro rfl
      have hle := (h.asid hp).2
      omega
  case ended =>
    intro a ha hend
    have hne : u.asid ≠ a := hend.2 p { u with phase := φ } hself
    rw [hcalls, if_neg hne]
    refine h.ended a ha ⟨hroot ▸ hend.1, fun r v hv => ?_⟩
    rcases eq_or_ne r p with rfl | hr
    · obtain rfl := Option.some.inj (hp.symm.trans hv)
      exact hne
    · refine hend.2 r v ?_
      rw [hproc, k.setPhase_of_ne p u φ hr, hv]
  case received => exact hreceived

/-- The next U-proc is created. -/
theorem create {i : Nat} {supp : SuppPtr} (h : Accounts tr k) (hx : Quiet ⟨k, e, k'⟩)
    (hroot : k.root = .creating i) (hi : i < uprocMax) (hp : k.proc p = none)
    (hroot' : k'.root = .creating (i + 1))
    (hproc : k'.proc = Function.update k.proc p (some ⟨BitVec.ofNat 32 (i + 1), supp, .user⟩)) :
    Accounts (tr ++ [⟨k, e, k'⟩]) k' := by
  have hnew : (asidOf ⟨i, hi⟩).toNat = i + 1 := asidOf_toNat ⟨i, hi⟩
  have hc : k.root.created = i := by
    rw [hroot]
    rfl
  have hc' : k'.root.created = i + 1 := by
    rw [hroot']
    rfl
  have hold : ∀ {r v}, k'.proc r = some v → r = p ∧ v = ⟨asidOf ⟨i, hi⟩, supp, .user⟩ ∨
      r ≠ p ∧ k.proc r = some v := by
    intro r v hv
    rw [hproc] at hv
    rcases eq_or_ne r p with rfl | hr
    · rw [Function.update_self] at hv
      exact .inl ⟨rfl, (Option.some.inj hv).symm⟩
    · exact .inr ⟨hr, (Function.update_of_ne hr ..).symm.trans hv⟩
  -- the ASIDs in use are below the new one
  have hlt : ∀ {r v}, k.proc r = some v → v.asid ≠ asidOf ⟨i, hi⟩ := by
    intro r v hv heq
    have hle := (h.asid hv).2
    rw [heq, hnew, hc] at hle
    omega
  constructor
  case created =>
    rw [hc']
    exact hi
  case asid =>
    intro r v hv
    rw [hc']
    rcases hold hv with ⟨-, rfl⟩ | ⟨-, hv⟩
    · exact ⟨uprocAsid_ofNat hi, hnew.le⟩
    · obtain ⟨ha, hle⟩ := h.asid hv
      exact ⟨ha, by omega⟩
  case inj =>
    intro r t v w hv hw heq
    rcases hold hv with ⟨hr, rfl⟩ | ⟨-, hv⟩
    · rcases hold hw with ⟨ht, -⟩ | ⟨-, hw⟩
      · exact hr.trans ht.symm
      · exact absurd heq.symm (hlt hw)
    · rcases hold hw with ⟨-, rfl⟩ | ⟨-, hw⟩
      · exact absurd heq (hlt hv)
      · exact h.inj hv hw heq
  case live =>
    intro r v hv
    rw [calls_quiet hx]
    rcases hold hv with ⟨-, rfl⟩ | ⟨-, hv⟩
    · exact h.unborn _ (by rw [hc, hnew]; omega)
    · exact h.live hv
  case unborn =>
    intro a ha
    rw [calls_quiet hx]
    exact h.unborn a (by omega)
  case ended =>
    intro a ha hend
    rw [calls_quiet hx]
    have hself : k'.proc p = some ⟨asidOf ⟨i, hi⟩, supp, .user⟩ := by
      rw [hproc, Function.update_self]
      rfl
    have hne : asidOf ⟨i, hi⟩ ≠ a := hend.2 p _ hself
    refine h.ended a ha ⟨?_, fun r v hv => ?_⟩
    · have hle := hend.1
      have hnat : a.toNat ≠ i + 1 := fun heq =>
        hne (BitVec.eq_of_toNat_eq (hnew.trans heq.symm))
      omega
    · rcases eq_or_ne r p with rfl | hr
      · exact nomatch hp.symm.trans hv
      · refine hend.2 r v ?_
        rw [hproc, Function.update_of_ne hr, hv]
  case received =>
    simp only [received_quiet hx, calls_quiet hx]
    exact h.received

/-- No U-proc does a second `V`. -/
theorem called_le (h : Accounts tr k) (n : Fin uprocMax) : (calls (asidOf n) tr).2 ≤ 1 := by
  rcases lt_or_ge k.root.created (asidOf n).toNat with hn | hn
  · rw [h.unborn _ hn]
    exact Nat.zero_le 1
  · rcases Classical.em (∃ p u, k.proc p = some u ∧ u.asid = asidOf n) with ⟨p, u, hp, ha⟩ | hno
    · rw [← ha, h.live hp]
      cases u.phase with
      | notified => exact le_refl 1
      | user | acquiring | waiting | holding | found _ | paging _ _ _ | mapped | terminating
      | deallocated | stray => exact Nat.zero_le 1
    · rw [h.ended (asidOf n) (uprocAsid_ofNat n.isLt) ⟨hn, fun p u hp ha => hno ⟨p, u, hp, ha⟩⟩]

/-- After `UPROCMAX` of them every U-proc has done its `V`. -/
theorem all_called (h : Accounts tr k) (hr : uprocMax ≤ Phase3.received tr) (n : Fin uprocMax) :
    (calls (asidOf n) tr).2 = 1 := by
  by_contra hne
  have hlt : (calls (asidOf n) tr).2 < 1 := lt_of_le_of_ne (h.called_le n) hne
  have hsum := Finset.sum_lt_sum (fun n _ => h.called_le n) ⟨n, Finset.mem_univ n, hlt⟩
  have hcard : (∑ _n : Fin uprocMax, 1) = uprocMax := by simp
  rw [← h.received, hcard] at hsum
  omega

/-- Then all who are still there are about to end. -/
theorem all_notified (h : Accounts tr k) (hr : uprocMax ≤ Phase3.received tr)
    (hp : k.proc p = some u) : u.phase = .notified := by
  obtain ⟨n, hn⟩ := (h.asid hp).1.exists_fin
  have hone := h.all_called hr n
  rw [asidOf, ← hn, h.live hp] at hone
  cases hu : u.phase with
  | notified => rfl
  | user | acquiring | waiting | holding | found _ | paging _ _ _ | mapped | terminating
  | deallocated | stray =>
      rw [hu] at hone
      exact nomatch hone

end Accounts

/-! ## The semaphore of the root process -/

theorem RootInv.returned (h : RootInv tr k) (hroot : k.root = .returned) :
    uprocMax ≤ received tr := by
  have hv := h.value
  have hpos := (h.passed (by rw [hroot]; nofun)).1
  rw [hroot] at hv
  simp only [Root.downs] at hv
  omega

theorem RootInv.congr {x : Entry} (h : RootInv tr k) (hx : received (tr ++ [x]) = received tr)
    (hsem : k'.masterSem = k.masterSem) (hroot : k'.root = k.root) : RootInv (tr ++ [x]) k' where
  value := by
    rw [hsem, hroot, hx]
    exact h.value
  blocked := by
    rw [hsem, hroot]
    exact h.blocked
  passed := by
    rw [hsem, hroot]
    exact h.passed
  bound := by
    rw [hroot]
    exact h.bound

/-- `P(masterSem)` -/
theorem RootInv.down {i : Nat} {x : Entry} (h : RootInv tr k) (hx : received (tr ++ [x]) = received tr)
    (hroot : k.root = .waiting i) (hi : i < uprocMax) : RootInv (tr ++ [x]) { k with
      masterSem := k.masterSem.step (.down ())
      root := if k.masterSem.value - 1 < 0 then .blocked i else .waiting (i + 1) } := by
  have hv := h.value
  obtain ⟨hpos, hq⟩ := h.passed (by rw [hroot]; rintro i ⟨⟩)
  rw [hroot] at hv
  simp only [Root.downs] at hv
  by_cases hneg : k.masterSem.value - 1 < 0
  · simp only [Sem.step, if_pos hneg, hq]
    constructor
    case value =>
      simp only [Root.downs, hx]
      omega
    case blocked =>
      rintro j ⟨⟩
      exact ⟨hi, by dsimp only; omega, rfl⟩
    case passed => exact fun hno => absurd rfl (hno i)
    case bound => rintro j ⟨⟩
  · simp only [Sem.step, if_neg hneg, hq]
    constructor
    case value =>
      simp only [Root.downs, hx]
      omega
    case blocked => rintro j ⟨⟩
    case passed => exact fun _ => ⟨by dsimp only; omega, rfl⟩
    case bound =>
      rintro j ⟨⟩
      exact hi

/-- `V(masterSem)` -/
theorem RootInv.up {x : Entry} (h : RootInv tr k) (hx : received (tr ++ [x]) = received tr + 1)
    (hsem : k'.masterSem = k.notifyTerminated.masterSem)
    (hroot : k'.root = k.notifyTerminated.root) : RootInv (tr ++ [x]) k' := by
  have hv := h.value
  have hsem : k'.masterSem = ⟨k.masterSem.value + 1, k.masterSem.queue.tail⟩ := hsem
  cases hr : k.root with
  | blocked i =>
      obtain ⟨hi, hval, hq⟩ := h.blocked i hr
      have hroot : k'.root = .waiting (i + 1) := by rw [hroot, Sys.notifyTerminated, hr]
      rw [hr] at hv
      simp only [Root.downs] at hv
      constructor
      case value =>
        rw [hsem, hroot, hx]
        simp only [Root.downs]
        omega
      case blocked => simp [hroot]
      case passed => simp [hsem, hval, hq]
      case bound =>
        intro j hj
        obtain rfl : i + 1 = j := by simpa using hroot.symm.trans hj
        exact hi
  | creating i | waiting i | returned | ended =>
      have hroot : k'.root = k.root := by rw [hroot, Sys.notifyTerminated, hr]
      obtain ⟨hpos, hq⟩ := h.passed (by rw [hr]; nofun)
      constructor
      case value =>
        rw [hsem, hroot, hx]
        dsimp only
        omega
      case blocked => simp [hroot, hr]
      case passed =>
        rw [hsem, hq]
        exact fun _ => ⟨by dsimp only; omega, rfl⟩
      case bound =>
        rw [hroot]
        exact h.bound

/-- The root process moves without a `P`. -/
theorem RootInv.move {x : Entry} (h : RootInv tr k) (hx : received (tr ++ [x]) = received tr)
    (hsem : k'.masterSem = k.masterSem) (hdowns : k'.root.downs = k.root.downs)
    (hb : ∀ i, k.root ≠ .blocked i) (hb' : ∀ i, k'.root ≠ .blocked i)
    (hw : ∀ i, k'.root = .waiting i → i ≤ uprocMax) : RootInv (tr ++ [x]) k' where
  value := by
    rw [hsem, hdowns, hx]
    exact h.value
  blocked i hi := absurd hi (hb' i)
  passed _ := by
    rw [hsem]
    exact h.passed hb
  bound := hw

theorem LifeMove.rootInv (h : LifeMove k e k') (hk : RootInv tr k) (ha : Accounts tr k) :
    RootInv (tr ++ [⟨k, e, k'⟩]) k' := by
  have hroot : ∀ {p k'}, received (tr ++ [⟨k, .root p, k'⟩]) = received tr := fun {p k'} =>
    received_quiet (quiet_of_event nofun)
  cases h with
  | keep hsem hroot _ _ hquiet => exact hk.congr (received_quiet hquiet) hsem hroot
  | dealloc hp hu hsem hroot _ => exact hk.congr (received_dealloc hp hu) hsem hroot
  | gone hp hu =>
      exact hk.congr (received_quiet (quiet_next hp (by rw [hu]; exact ⟨nofun, nofun⟩))) rfl rfl
  | create hroot₀ _ _ hsem hroot' _ =>
      refine hk.move hroot hsem ?_ ?_ ?_ ?_
      · rw [hroot', hroot₀]
        rfl
      · rw [hroot₀]
        nofun
      · rw [hroot']
        nofun
      · rw [hroot']
        nofun
  | allCreated hroot₀ hi =>
      refine hk.move hroot rfl ?_ ?_ nofun ?_
      · rw [hroot₀]
        rfl
      · rw [hroot₀]
        nofun
      · rintro i ⟨⟩
        exact Nat.zero_le _
  | returns hroot₀ hi =>
      refine hk.move hroot rfl ?_ ?_ nofun nofun
      · have hle := hk.bound _ hroot₀
        rw [hroot₀]
        simp only [Root.downs]
        omega
      · rw [hroot₀]
        nofun
  | ends hroot₀ =>
      refine hk.move hroot rfl ?_ ?_ nofun nofun
      · rw [hroot₀]
        rfl
      · rw [hroot₀]
        nofun
  | down hroot₀ hi => exact hk.down hroot hroot₀ hi
  | notify hp hu => exact hk.up (received_notify hp hu (ha.asid hp).1) rfl rfl

theorem LifeMove.accounts (h : LifeMove k e k') (hk : Accounts tr k) (hr : RootInv tr k) :
    Accounts (tr ++ [⟨k, e, k'⟩]) k' := by
  have hquiet : ∀ {p k'}, Quiet ⟨k, .root p, k'⟩ := fun {p k'} => quiet_of_event nofun
  cases h with
  | keep _ hroot hold hnew hquiet =>
      refine hk.quiet hquiet (congrArg _ hroot) hold fun a ha => .inl ⟨hroot ▸ ha.1, ?_⟩
      intro p u hp heq
      obtain ⟨v, hv, hva⟩ := hnew p u hp
      exact ha.2 p v hv (hva.trans heq)
  | @dealloc _ p u hp hu _ hroot hproc =>
      refine hk.call hp hproc (congrArg _ hroot) (fun a => ?_) ?_
      · rw [calls_dealloc hp hu]
        split
        next ha =>
          rw [← ha, hk.live hp, hu]
          rfl
        next => rfl
      · rw [received_dealloc hp hu, hk.received]
        refine Finset.sum_congr rfl fun n _ => ?_
        rw [calls_dealloc hp hu]
        split
        · rfl
        · rfl
  | @notify p u hp hu =>
      refine hk.call hp rfl (notifyTerminated_created k) (fun a => ?_) ?_
      · rw [calls_notify hp hu]
        split
        next ha =>
          rw [← ha, hk.live hp, hu]
          rfl
        next => rfl
      · obtain ⟨n₀, hn₀⟩ := (hk.asid hp).1.exists_fin
        have hstep : ∀ n, (calls (asidOf n) (tr ++
            [⟨k, .next p, k.notifyTerminated.setPhase p u .notified⟩])).2 =
              (calls (asidOf n) tr).2 + if n₀ = n then 1 else 0 := by
          intro n
          rw [calls_notify hp hu]
          have hiff : u.asid = asidOf n ↔ n₀ = n := by
            constructor
            · exact fun ha => asidOf_inj (hn₀.symm.trans ha)
            · rintro rfl
              exact hn₀
          by_cases hn : n₀ = n
          · rw [if_pos (hiff.mpr hn), if_pos hn]
          · rw [if_neg (mt hiff.mp hn), if_neg hn]
            rfl
        rw [received_notify hp hu (hk.asid hp).1, hk.received]
        simp only [hstep, Finset.sum_add_distrib, Finset.sum_ite_eq, Finset.mem_univ, if_true]
  | @gone p u hp hu =>
      refine hk.quiet (quiet_next hp (by rw [hu]; exact ⟨nofun, nofun⟩)) rfl (fun r v hv => ?_)
        fun a ha => ?_
      · exact ⟨v, (Sys.of_termProcess hv).2, rfl, rfl⟩
      · rcases eq_or_ne u.asid a with rfl | hne
        · rw [hk.live hp, hu]
          exact .inr rfl
        · refine .inl ⟨ha.1, fun r v hv => ?_⟩
          rcases eq_or_ne r p with rfl | hr
          · obtain rfl := Option.some.inj (hp.symm.trans hv)
            exact hne
          · exact ha.2 r v ((k.termProcess_of_ne p hr).trans hv)
  | create hroot hi hp _ hroot' hproc => exact hk.create hquiet hroot hi hp hroot' hproc
  | @allCreated p i hroot hi =>
      refine hk.same hquiet ?_ rfl
      have hle := hk.created
      rw [hroot] at hle ⊢
      exact le_antisymm (not_lt.mp hi) hle
  | down hroot _ =>
      refine hk.same hquiet ?_ rfl
      rw [hroot]
      dsimp only
      split
      · rfl
      · rfl
  | returns hroot _ =>
      refine hk.same hquiet ?_ rfl
      rw [hroot]
      rfl
  | ends hroot =>
      refine hk.quiet hquiet (by rw [hroot]; rfl) nofun fun a ha => ?_
      rcases Classical.em (∃ p u, k.proc p = some u ∧ u.asid = a) with ⟨p, u, hp, rfl⟩ | hno
      · rw [hk.live hp, hk.all_notified (hr.returned hroot) hp]
        exact .inr rfl
      · refine .inl ⟨?_, fun p u hp heq => hno ⟨p, u, hp, heq⟩⟩
        rw [hroot]
        exact ha.1

/-! ## Who holds the lock -/

/-- While the lock is not free some U-proc is in the pager. -/
theorem LockMove.held (h : LockMove k e k') (hl : k.Locks) (hf : Finds ⟨k, e, k'⟩)
    (hclear : k.root = .returned → ∀ r, ¬ k.Inside r) (hk : k.swapSem.Held k.Inside) :
    k'.swapSem.Held k'.Inside := by
  cases h with
  | same hsem hi _ =>
      intro hv
      rw [hsem] at hv
      obtain ⟨r, hr⟩ := hk hv
      exact ⟨r, (hi r).mpr hr⟩
  | pass _ _ hi _ => exact fun _ => ⟨_, (hi _).mpr (.inr rfl)⟩
  | wait hv hsem _ hi _ =>
      rw [hsem]
      exact Sem.Locks.held_wait hk hv hi
  | leave hp hsem hi _ =>
      rw [hsem]
      exact hl.held_leave hp hi
  | vanish hp hu hmiss _ _ _ => exact absurd hmiss (hf.2 _ _ rfl hp hu)
  | clear hroot hsem _ =>
      have hv : k.swapSem.value = 1 := by
        by_contra hne
        obtain ⟨r, hr⟩ := hk hne
        exact hclear hroot r hr
      intro hne
      refine absurd ?_ hne
      rw [hsem]
      simp [Sem.step, hl.queue_nil hv, hv]

/-! ## Runs -/

structure LifeInv (tr : List Entry) (k : Sys) : Prop where
  locks : k.Locks
  accounts : Accounts tr k
  root : RootInv tr k
  held : k.swapSem.Held k.Inside

theorem LifeInv.step (h : LifeInv tr k) (hs : Phase3.step k e = some k')
    (hx : Started ⟨k, e, k'⟩ ∧ Finds ⟨k, e, k'⟩) : LifeInv (tr ++ [⟨k, e, k'⟩]) k' := by
  have hout := step_outcome hs
  have hlock := hout.lockMove h.locks
  have hlife := hout.lifeMove h.locks hx.1 hx.2
  refine ⟨hlock.locks h.locks, hlife.accounts h.accounts h.root, hlife.rootInv h.root h.accounts,
    hlock.held h.locks hx.2 (fun hroot r hr => ?_) h.held⟩
  obtain ⟨u, hu, hin⟩ := hr
  rw [h.accounts.all_notified (h.root.returned hroot) hu] at hin
  exact nomatch hin

theorem Machine.start_life (m : Machine) : LifeInv [] m.start where
  locks := m.start_locks
  accounts :=
    { created := Nat.zero_le _
      asid := nofun
      inj := nofun
      live := nofun
      unborn := fun _ _ => rfl
      ended := fun a ha hend => by
        have h0 : a.toNat ≤ 0 := hend.1
        have h1 : 1 ≤ a.toNat := ha.1
        omega
      received := by simp [received, calls] }
  root :=
    { value := rfl
      blocked := nofun
      passed := fun _ => ⟨le_refl _, rfl⟩
      bound := nofun }
  held := fun h => absurd rfl h

theorem Run.life {m : Machine} (h : Run m tr k) (hx : ∀ x ∈ tr, Started x ∧ Finds x) :
    LifeInv tr k :=
  h.invariant (P := LifeInv) hx m.start_life fun h hs hx => h.step hs hx

/-- The root process gets to the end of `waitForUprocs` by itself. -/
def Sys.Returns (k : Sys) : Prop :=
  ∃ tr k', Trace.Run Phase3.step k tr k' ∧ (∀ x ∈ tr, ∃ p, x.event = .root p) ∧
    (k'.root = .returned ∨ k'.root = .ended)

theorem Sys.Returns.here (h : k.root = .returned ∨ k.root = .ended) : k.Returns :=
  ⟨[], k, .nil, fun _ hx => absurd hx List.not_mem_nil, h⟩

theorem Sys.Returns.step (h : k'.Returns) (hs : Phase3.step k (.root p) = some k') :
    k.Returns := by
  obtain ⟨tr, k₁, hrun, hroot, hret⟩ := h
  refine ⟨[⟨k, .root p, k'⟩] ++ tr, k₁, (Trace.Run.snoc .nil hs).append hrun, fun x hx => ?_, hret⟩
  rcases List.mem_append.mp hx with hx | hx
  · obtain rfl := List.mem_singleton.mp hx
    exact ⟨p, rfl⟩
  · exact hroot x hx

/-- The `V`s are there for all the `P`s to come. -/
theorem returns_of_waiting {n : Nat} : ∀ {i : Nat} {k : Sys}, i + n = uprocMax →
    k.root = .waiting i → k.masterSem.value = n → k.Returns := by
  induction n with
  | zero =>
      intro i k hi hroot _
      have hlt : ¬ i < uprocMax := by omega
      have hs : Phase3.step k (.root 0) = some { k with root := .returned } := by
        simp only [Phase3.step, Sys.rootStep, hroot, if_neg hlt]
      exact .step (.here (.inl rfl)) hs
  | succ n ih =>
      intro i k hi hroot hv
      have hlt : i < uprocMax := by omega
      have hpass : ¬ k.masterSem.value - 1 < 0 := by omega
      have hs : Phase3.step k (.root 0) = some { k with
          masterSem := k.masterSem.step (.down ())
          root := .waiting (i + 1) } := by
        simp only [Phase3.step, Sys.rootStep, hroot, if_pos hlt, if_neg hpass]
      refine .step (ih (by omega) rfl ?_) hs
      simp only [Sem.step]
      omega

theorem RootInv.returns (h : RootInv tr k) (hr : received tr = uprocMax)
    (hc : k.root.created = uprocMax) : k.Returns := by
  have hv := h.value
  rw [hr] at hv
  cases hroot : k.root with
  | creating i =>
      rw [hroot] at hc hv
      obtain rfl : i = uprocMax := hc
      have hs : Phase3.step k (.root 0) = some { k with root := .waiting 0 } := by
        simp only [Phase3.step, Sys.rootStep, hroot, if_neg (lt_irrefl _)]
      refine .step (returns_of_waiting (Nat.zero_add _) rfl ?_) hs
      simpa [Root.downs] using hv
  | waiting i =>
      have hle := h.bound i hroot
      rw [hroot] at hv
      simp only [Root.downs] at hv
      exact returns_of_waiting (n := uprocMax - i) (by omega) hroot (by omega)
  | blocked i =>
      obtain ⟨hi, hneg, -⟩ := h.blocked i hroot
      rw [hroot] at hv
      simp only [Root.downs] at hv
      omega
  | returned => exact .here (.inl hroot)
  | ended => exact .here (.inr hroot)

/-- In a run of the U-procs of `test_phase_3` in which every address that is
looked up is found, a U-proc that has ended has called `dealloc_supp` and
`notifyTerminated` once each, and it has left the pager.  When all are gone the
root process has what it waits for, and the pager is free. -/
theorem terminates_in_order {m : Machine} (h : Run m tr k)
    (hx : ∀ x ∈ tr, Started x ∧ Finds x) :
    (∀ a, UprocAsid a → k.Ended a → calls a tr = (1, 1)) ∧
      (k.swapSem.value ≠ 1 → ∃ p u, k.proc p = some u ∧ u.phase.inside = true) ∧
      (k.root.created = uprocMax → (∀ p, k.proc p = none) →
        received tr = uprocMax ∧ k.Returns ∧ k.swapSem = ⟨1, []⟩) := by
  have hlife := h.life hx
  refine ⟨hlife.accounts.ended, hlife.held, fun hc hno => ?_⟩
  have hall : ∀ n, (calls (asidOf n) tr).2 = 1 := fun n => by
    have hend : k.Ended (asidOf n) :=
      ⟨by rw [hc, asidOf_toNat]; exact n.isLt, fun p u hp => nomatch (hno p).symm.trans hp⟩
    rw [hlife.accounts.ended (asidOf n) (uprocAsid_ofNat n.isLt) hend]
  have hr : received tr = uprocMax := by
    simp [hlife.accounts.received, hall]
  have hv : k.swapSem.value = 1 := by
    by_contra hne
    obtain ⟨p, u, hp, -⟩ := hlife.held hne
    exact nomatch (hno p).symm.trans hp
  have hq := hlife.locks.queue_nil hv
  refine ⟨hr, hlife.root.returns hr hc, ?_⟩
  cases hs : k.swapSem with
  | mk value queue =>
      rw [hs] at hv hq
      rw [← hv, ← hq]

end

/-- All U-procs are created, and each terminates. -/
def allTerminate : List Event :=
  [1, 2, 3, 4, 5, 6, 7, 8].map .root ++
    [1, 2, 3, 4, 5, 6, 7, 8].flatMap fun p => [.except p terminates, .next p, .next p, .next p]

theorem terminates_in_order_all : ∃ tr k, Run .zero tr k ∧
    tr.map Trace.Entry.event = allTerminate ∧ (∀ a, UprocAsid a → calls a tr = (1, 1)) ∧
      received tr = uprocMax ∧ k.Returns ∧ k.swapSem = ⟨1, []⟩ := by
  have hany : (Trace.exec step Machine.zero.start allTerminate).any (fun x =>
      (∀ p, (x.2.proc p).isNone = true) ∧ x.2.root.created = uprocMax ∧
        ∀ z ∈ x.1, ∀ p, (z.before.proc p).all fun u => u.phase ≠ .holding) = true := by
    decide +kernel
  obtain ⟨tr, k, hrun, hevents, h⟩ := Trace.run_of_any hany
  obtain ⟨hnone, hc, hout⟩ := of_decide_eq_true h
  have hno : ∀ p, k.proc p = none := fun p => Option.isNone_iff_eq_none.mp (hnone p)
  have hmem : ∀ x ∈ tr, x.event ∈ allTerminate := fun x hx => hevents ▸ List.mem_map_of_mem hx
  have hfinds : ∀ x ∈ tr, Finds x := by
    intro x hx
    refine ⟨fun p badVAddr u he => ?_, fun p u _ hp hu => ?_⟩
    · have hm := hmem x hx
      rw [he] at hm
      simp [allTerminate] at hm
    · have hp := (Option.all_eq_true _ _).mp (hout x hx p) u hp
      exact absurd hu (of_decide_eq_true hp)
  obtain ⟨hcalls, -, hend⟩ := terminates_in_order hrun fun x hx =>
    ⟨started_of_events hevents (by simp [allTerminate]) x hx, hfinds x hx⟩
  refine ⟨tr, k, hrun, hevents, fun a ha => hcalls a ha ⟨?_, ?_⟩, hend hc hno⟩
  · rw [hc]
    exact ha.2
  · exact fun p u hp => nomatch (hno p).symm.trans hp

/-- A U-proc refers to an address that it does not have: in the refill handler
it ends without a call, and in the pager with `swapSem` down as well. -/
theorem ends_unaccounted :
    (∃ tr k, Run .zero tr k ∧ tr.map Trace.Entry.event = [.root 1, .refill 1 0x80100000] ∧
      k.Ended 1 ∧ calls 1 tr = (0, 0)) ∧
    ∃ tr k, Run .zero tr k ∧ tr.map Trace.Entry.event =
        [.root 1, .fault 1 { zeroState with cause := 8, entryHi := 0x80100000 }, .next 1, .next 1] ∧
      k.Ended 1 ∧ calls 1 tr = (0, 0) ∧ k.swapSem.value = 0 ∧ ∀ p, k.proc p = none := by
  have hended : ∀ {k : Sys}, 1 ≤ k.root.created → (∀ p, (k.proc p).isNone = true) →
      k.Ended 1 ∧ ∀ p, k.proc p = none := by
    intro k hc hnone
    have hno : ∀ p, k.proc p = none := fun p => Option.isNone_iff_eq_none.mp (hnone p)
    exact ⟨⟨hc, fun p u hp => nomatch (hno p).symm.trans hp⟩, hno⟩
  constructor
  · have hany : (Trace.exec step Machine.zero.start [.root 1, .refill 1 0x80100000]).any (fun x =>
        1 ≤ x.2.root.created ∧ (∀ p, (x.2.proc p).isNone = true) ∧ calls 1 x.1 = (0, 0)) = true := by
      decide +kernel
    obtain ⟨tr, k, hrun, hevents, h⟩ := Trace.run_of_any hany
    obtain ⟨hc, hno, hcalls⟩ := of_decide_eq_true h
    exact ⟨tr, k, hrun, hevents, (hended hc hno).1, hcalls⟩
  · have hany : (Trace.exec step Machine.zero.start [.root 1,
        .fault 1 { zeroState with cause := 8, entryHi := 0x80100000 }, .next 1, .next 1]).any (fun x =>
          1 ≤ x.2.root.created ∧ (∀ p, (x.2.proc p).isNone = true) ∧ calls 1 x.1 = (0, 0) ∧
            x.2.swapSem.value = 0) = true := by
      decide +kernel
    obtain ⟨tr, k, hrun, hevents, h⟩ := Trace.run_of_any hany
    obtain ⟨hc, hno, hcalls, hv⟩ := of_decide_eq_true h
    obtain ⟨hend, hno⟩ := hended hc hno
    exact ⟨tr, k, hrun, hevents, hend, hcalls, hv, hno⟩

end Pandos.Phase3
