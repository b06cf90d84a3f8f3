/-
# `Pandos.Phase3.Atomic` — page faults are served one at a time

Between the `IOWAIT`s of the pager other U-procs compute, fault, end and are
created.  For the tables that `swapSem` protects this makes no difference
(`pager_atomic`): whenever the lock is free they are what they would be if
each page fault had been served in one go, at the moment its page was mapped,
and each U-proc had been created in one go.  While a U-proc is in the pager
the tables are those of this serial run, and `Stage.begun` on top of it.
-/
import Pandos.Phase3.Recycling

namespace Pandos.Phase3

open Semaphore

/-! ## The pager in one go -/

namespace Vm

variable (vm : Vm)

/-- What `markInvalidAndSave` does to the page in the chosen frame, if any. -/
def vacate : Vm :=
  let frame := vm.swapTable vm.frameIndexToReplace
  if frameIsOccupied frame then
    match frame.swPte with
    | some q => vm.markInvalid q
    | none => vm
  else vm

/-- `handleTLBInvalid`, less the transfers. -/
def handleTLBInvalid (page : PtePtr) : Vm :=
  let vm := vm.updateFrameIndexToReplace.vacate
  (vm.updateSwapTableEntry vm.frameIndexToReplace page).markValidAndUpdateTLB page

/-- `init_uproc_pagetable` -/
def initPagetable (supp : SuppPtr) (asid : Word) : Vm :=
  { vm with
    supp := Function.update vm.supp supp
      (initUprocPagetable { vm.supp supp with supAsid := asid }) }

end Vm

/-- What changes the tables, in one go. -/
inductive TableOp where
  | serve (page : PtePtr)
  | create (supp : SuppPtr) (asid : Word)
deriving DecidableEq

def Vm.exec (vm : Vm) : TableOp → Vm
  | .serve page => vm.handleTLBInvalid page
  | .create supp asid => vm.initPagetable supp asid

/-- A page fault is served when its page is mapped. -/
def tableOp (x : Entry) : Option TableOp :=
  match x.event with
  | .next p => (x.before.proc p).bind fun u =>
      match u.phase with
      | .paging page _ .recorded => some (.serve page)
      | _ => none
  | .root p | .spawn p _ =>
      if x.before.proc p = none then (x.after.proc p).map fun u => .create u.supp u.asid
      else none
  | .store _ _ _ _ | .refill _ _ | .fault _ _ | .except _ _ | .flashDone _ _ => none

/-- The serial run. -/
def serial (m : Machine) (tr : List Entry) : Vm := (tr.filterMap tableOp).foldl Vm.exec m.start.vm

theorem Vm.initPagetable_pte_self {vm : Vm} {s : SuppPtr} {a : Word} {q : PtePtr} (h : q.1 = s) :
    (vm.initPagetable s a).pte q = ⟨pageHi a q.2, dirtyOn⟩ := by
  subst h
  simp only [pte, initPagetable, Function.update_self, initUprocPagetable]

theorem Vm.initPagetable_pte_of_ne {vm : Vm} {s : SuppPtr} {a : Word} {q : PtePtr} (h : q.1 ≠ s) :
    (vm.initPagetable s a).pte q = vm.pte q := by
  simp only [pte, initPagetable, Function.update_of_ne h]

/-- How far `handleTLBInvalid` has come in each stage. -/
def Stage.begun (page : PtePtr) (f : Fin poolSize) (vm : Vm) : Stage → Vm
  | .chosen => vm.updateFrameIndexToReplace
  | .invalidated | .writing _ | .vacated | .reading _ | .loaded =>
      vm.updateFrameIndexToReplace.vacate
  | .recorded => vm.updateFrameIndexToReplace.vacate.updateSwapTableEntry f page

/-! ## The tables -/

/-- The page tables, the swap pool table and the index are the same. -/
structure Vm.SameTables (vm vm' : Vm) : Prop where
  swapTable : vm.swapTable = vm'.swapTable
  index : vm.frameIndexToReplace = vm'.frameIndexToReplace
  pte : ∀ q, vm.pte q = vm'.pte q

namespace Vm.SameTables

variable {vm vm' vm'' : Vm} {page q : PtePtr} {f : Fin poolSize} {s : SuppPtr} {a : Word}

theorem refl (vm : Vm) : vm.SameTables vm := ⟨rfl, rfl, fun _ => rfl⟩

theorem symm (h : vm.SameTables vm') : vm'.SameTables vm :=
  ⟨h.swapTable.symm, h.index.symm, fun q => (h.pte q).symm⟩

theorem trans (h : vm.SameTables vm') (h' : vm'.SameTables vm'') : vm.SameTables vm'' :=
  ⟨h.swapTable.trans h'.swapTable, h.index.trans h'.index, fun q => (h.pte q).trans (h'.pte q)⟩

/-! Each function of the pager depends on the tables only. -/

theorem choose (h : vm.SameTables vm') :
    vm.updateFrameIndexToReplace.SameTables vm'.updateFrameIndexToReplace where
  swapTable := h.swapTable
  index := by simp only [updateFrameIndexToReplace, h.swapTable, h.index]
  pte := h.pte

theorem markInvalid (h : vm.SameTables vm') (q : PtePtr) :
    (vm.markInvalid q).SameTables (vm'.markInvalid q) where
  swapTable := h.swapTable
  index := h.index
  pte r := by
    rcases eq_or_ne r q with rfl | hr
    · rw [markInvalid_self, markInvalid_self, h.pte]
    · rw [vm.markInvalid_of_ne q r hr, vm'.markInvalid_of_ne q r hr, h.pte]

theorem vacate (h : vm.SameTables vm') : vm.vacate.SameTables vm'.vacate := by
  unfold Vm.vacate
  simp only [h.swapTable, h.index]
  split
  · split
    · exact h.markInvalid _
    · exact h
  · exact h

theorem record (h : vm.SameTables vm') (f : Fin poolSize) (page : PtePtr) :
    (vm.updateSwapTableEntry f page).SameTables (vm'.updateSwapTableEntry f page) where
  swapTable := by simp only [updateSwapTableEntry, h.swapTable, h.pte]
  index := h.index
  pte := h.pte

theorem map (h : vm.SameTables vm') (page : PtePtr) :
    (vm.markValidAndUpdateTLB page).SameTables (vm'.markValidAndUpdateTLB page) where
  swapTable := h.swapTable
  index := h.index
  pte r := by
    rcases eq_or_ne r page with rfl | hr
    · rw [markValid_self, markValid_self, h.pte, h.index]
    · rw [vm.markValid_of_ne page r hr, vm'.markValid_of_ne page r hr, h.pte]

theorem initPagetable (h : vm.SameTables vm') (s : SuppPtr) (a : Word) :
    (vm.initPagetable s a).SameTables (vm'.initPagetable s a) where
  swapTable := h.swapTable
  index := h.index
  pte r := by
    rcases eq_or_ne r.1 s with rfl | hr
    · rw [initPagetable_pte_self rfl, initPagetable_pte_self rfl]
    · rw [initPagetable_pte_of_ne hr, initPagetable_pte_of_ne hr, h.pte]

end Vm.SameTables

/-! ## A new page table -/

namespace Vm

variable {vm : Vm} {s : SuppPtr} {a : Word}

/-- A new page table has no valid page to make invalid. -/
theorem initPagetable_markInvalid (q : PtePtr) :
    ((vm.initPagetable s a).markInvalid q).SameTables ((vm.markInvalid q).initPagetable s a) where
  swapTable := rfl
  index := rfl
  pte r := by
    rcases eq_or_ne r q with rfl | hr
    · rw [markInvalid_self]
      rcases eq_or_ne r.1 s with hs | hs
      · rw [initPagetable_pte_self hs, initPagetable_pte_self hs]
        exact congrArg (PteEntry.mk _) (show dirtyOn &&& ~~~validOn = dirtyOn by decide)
      · rw [initPagetable_pte_of_ne hs, initPagetable_pte_of_ne hs, markInvalid_self]
    · rw [markInvalid_of_ne _ q r hr]
      rcases eq_or_ne r.1 s with hs | hs
      · rw [initPagetable_pte_self hs, initPagetable_pte_self hs]
      · rw [initPagetable_pte_of_ne hs, initPagetable_pte_of_ne hs, markInvalid_of_ne _ q r hr]

theorem initPagetable_vacate (vm : Vm) (s : SuppPtr) (a : Word) :
    (vm.initPagetable s a).vacate.SameTables (vm.vacate.initPagetable s a) := by
  unfold vacate
  simp only [show (vm.initPagetable s a).swapTable = vm.swapTable from rfl,
    show (vm.initPagetable s a).frameIndexToReplace = vm.frameIndexToReplace from rfl]
  split
  · split
    · exact initPagetable_markInvalid _
    · exact .refl _
  · exact .refl _

theorem initPagetable_record {page : PtePtr} (f : Fin poolSize) (h : page.1 ≠ s) :
    ((vm.initPagetable s a).updateSwapTableEntry f page).SameTables
      ((vm.updateSwapTableEntry f page).initPagetable s a) where
  swapTable := by
    simp only [updateSwapTableEntry, initPagetable_pte_of_ne h]
    rfl
  index := rfl
  pte _ := rfl

/-- A page table that is built while another fault is being served may as well
have been built before. -/
theorem initPagetable_begun {page : PtePtr} (f : Fin poolSize) (σ : Stage) (h : page.1 ≠ s) :
    (σ.begun page f (vm.initPagetable s a)).SameTables
      ((σ.begun page f vm).initPagetable s a) := by
  cases σ with
  | chosen => exact .refl _
  | invalidated | writing _ | vacated | reading _ | loaded =>
      exact initPagetable_vacate vm.updateFrameIndexToReplace s a
  | recorded =>
      exact ((initPagetable_vacate vm.updateFrameIndexToReplace s a).record f page).trans
        (initPagetable_record f h)

/-- The choice of a frame is the same in all stages. -/
theorem begun_index (page : PtePtr) (f : Fin poolSize) (σ : Stage) :
    (σ.begun page f vm).frameIndexToReplace =
      vm.updateFrameIndexToReplace.frameIndexToReplace := by
  have hvacate : ∀ v : Vm, v.vacate.frameIndexToReplace = v.frameIndexToReplace := by
    intro v
    unfold vacate
    dsimp only
    split
    · split <;> rfl
    · rfl
  cases σ with
  | chosen => rfl
  | invalidated | writing _ | vacated | reading _ | loaded | recorded => exact hvacate _

end Vm

/-! ## Steps -/

def Phase.midway : Phase → Bool
  | .paging _ _ _ => true
  | .user | .acquiring | .waiting | .holding | .found _ | .mapped | .terminating | .deallocated
  | .notified | .stray => false

theorem Phase.midway_inside {φ : Phase} (h : φ.midway = true) : φ.inside = true := by
  cases φ with
  | paging _ _ _ => rfl
  | user | acquiring | waiting | holding | found _ | mapped | terminating | deallocated | notified
  | stray => cases h

/-- Nobody gets into `handleTLBInvalid`, and whoever is there stays. -/
structure SameMidway (k k' : Sys) : Prop where
  old : ∀ {r u}, k.proc r = some u → u.phase.midway = true → k'.proc r = some u
  new : ∀ {r u}, k'.proc r = some u → u.phase.midway = true → k.proc r = some u

/-- What a step does to the tables. -/
inductive TableMove (k : Sys) (e : Event) (k' : Sys) : Prop where
  | quiet (hx : tableOp ⟨k, e, k'⟩ = none) (hvm : k'.vm.SameTables k.vm) (hmid : SameMidway k k')
  | create {supp asid pool} (hx : tableOp ⟨k, e, k'⟩ = some (.create supp asid))
      (halloc : k.pool.allocSupp = (some supp, pool))
      (hvm : k'.vm = k.vm.initPagetable supp asid) (hmid : SameMidway k k')
  | choose {p u page} (hx : tableOp ⟨k, e, k'⟩ = none) (hp : k.proc p = some u)
      (hu : u.phase = .found page)
      (hk : k' = (k.setVm k.vm.updateFrameIndexToReplace).setPhase p u
        (.paging page k.vm.updateFrameIndexToReplace.frameIndexToReplace .chosen))
  | stage {p u page f σ σ' vm} (hx : tableOp ⟨k, e, k'⟩ = none) (hp : k.proc p = some u)
      (hu : u.phase = .paging page f σ)
      (hk : k' = (k.setVm vm).setPhase p u (.paging page f σ'))
      (hvm : ∀ v : Vm, f = v.updateFrameIndexToReplace.frameIndexToReplace →
        k.vm.SameTables (σ.begun page f v) → vm.SameTables (σ'.begun page f v))
  | map {p u page f} (hx : tableOp ⟨k, e, k'⟩ = some (.serve page)) (hp : k.proc p = some u)
      (hu : u.phase = .paging page f .recorded)
      (hk : k' = (k.setVm (k.vm.markValidAndUpdateTLB page)).setPhase p u .mapped)
  | clear (hx : tableOp ⟨k, e, k'⟩ = none) (hvm : k'.vm.SameTables k.vm)
      (hsem : k'.swapSem = k.swapSem.step (.drop fun _ => true)) (hproc : ∀ r, k'.proc r = none)

section
variable {k k' : Sys} {p : PcbPtr} {u : Uproc} {e : Event}

theorem tableOp_next (k' : Sys) (hp : k.proc p = some u) : tableOp ⟨k, .next p, k'⟩ =
    match u.phase with
    | .paging page _ .recorded => some (.serve page)
    | _ => none := by
  simp only [tableOp, hp, Option.bind_some]

theorem tableOp_of_event (h : ∀ p, e ≠ .next p) (hroot : ∀ p, e ≠ .root p)
    (hspawn : ∀ p a, e ≠ .spawn p a) : tableOp ⟨k, e, k'⟩ = none := by
  cases e with
  | root p => exact absurd rfl (hroot p)
  | spawn p a => exact absurd rfl (hspawn p a)
  | next p => exact absurd rfl (h p)
  | store _ _ _ _ | refill _ _ | fault _ _ | except _ _ | flashDone _ _ => rfl

theorem tableOp_create {supp : SuppPtr} {asid : Word} (he : e = .root p ∨ ∃ a, e = .spawn p a)
    (hp : k.proc p = none) (hp' : k'.proc p = some ⟨asid, supp, .user⟩) :
    tableOp ⟨k, e, k'⟩ = some (.create supp asid) := by
  rcases he with rfl | ⟨a, rfl⟩
  · simp only [tableOp, if_pos hp, hp', Option.map_some]
  · simp only [tableOp, if_pos hp, hp', Option.map_some]

theorem tableOp_root (h : k'.proc p = k.proc p) : tableOp ⟨k, .root p, k'⟩ = none := by
  simp only [tableOp, h]
  split
  next hp => rw [hp]; rfl
  next => rfl

namespace SameMidway

theorem refl (h : k'.proc = k.proc) : SameMidway k k' :=
  ⟨fun hr _ => h ▸ hr, fun hr _ => h ▸ hr⟩

/-- A process moves outside of `handleTLBInvalid`. -/
theorem move {φ : Phase} (hp : k.proc p = some u) (hproc : k'.proc = (k.setPhase p u φ).proc)
    (hu : u.phase.midway = false) (hφ : φ.midway = false) : SameMidway k k' where
  old {r v} hr hv := by
    rw [hproc]
    rcases eq_or_ne r p with rfl | hne
    · obtain rfl := Option.some.inj (hp.symm.trans hr)
      exact absurd hv (by rw [hu]; decide)
    · rwa [Sys.setPhase_of_ne k p u φ hne]
  new {r v} hr hv := by
    rw [hproc] at hr
    rcases Sys.of_setPhase hr with ⟨rfl, rfl⟩ | ⟨-, hr⟩
    · exact absurd hv (by rw [show ({ u with phase := φ } : Uproc).phase = φ from rfl, hφ]; decide)
    · exact hr

theorem gone (hp : k.proc p = some u) (hu : u.phase.midway = false) :
    SameMidway k (k.termProcess p) where
  old {r v} hr hv := by
    rcases eq_or_ne r p with rfl | hne
    · obtain rfl := Option.some.inj (hp.symm.trans hr)
      exact absurd hv (by rw [hu]; decide)
    · rwa [Sys.termProcess_of_ne k p hne]
  new hr _ := (Sys.of_termProcess hr).2

theorem create {asid : Word} {supp : SuppPtr} (pool : Pool) (hp : k.proc p = none)
    (hproc : k'.proc = (k.create p asid supp pool).proc) : SameMidway k k' where
  old {r v} hr hv := by
    rw [hproc]
    rcases eq_or_ne r p with rfl | hne
    · exact nomatch hp.symm.trans hr
    · rwa [k.create_of_ne p asid supp pool hne]
  new {r v} hr hv := by
    rw [hproc] at hr
    rcases eq_or_ne r p with rfl | hne
    · rw [Sys.create_self, Option.some.injEq] at hr
      subst hr
      cases hv
    · rwa [k.create_of_ne p asid supp pool hne] at hr

theorem release (hl : k.Locks) (hp : k.proc p = some u) (hu : u.phase = .mapped) :
    SameMidway k (k.verhogenSwap p u) where
  old {r v} hr hv := by
    rcases eq_or_ne r p with rfl | hne
    · obtain rfl := Option.some.inj (hp.symm.trans hr)
      rw [hu] at hv
      cases hv
    · have hin : v.phase.inside = true := Phase.midway_inside hv
      have hmapped : u.phase.inside = true := by
        rw [hu]
        rfl
      exact absurd (hl.unique ⟨v, hr, hin⟩ ⟨u, hp, hmapped⟩) hne
  new {r v} hr hv := by
    rcases verhogenSwap_proc hl hr with ⟨rfl, rfl⟩ | ⟨-, hr | ⟨w, -, -, rfl⟩⟩
    · cases hv
    · exact hr
    · cases hv

end SameMidway

theorem Outcome.tableMove (h : Outcome k e k') (hl : k.Locks) : TableMove k e k' := by
  have hnext := fun (p : PcbPtr) u (hp : k.proc p = some u) => tableOp_next k' hp
  cases h with
  | @created p _ _ pool hroot _ halloc hp =>
      exact .create (tableOp_create (.inl rfl) hp (k.create_self _ _ _ pool)) halloc rfl
        (.create pool hp rfl)
  | @spawned p _ _ pool _ halloc hp =>
      exact .create (tableOp_create (.inr ⟨_, rfl⟩) hp (k.create_self _ _ _ pool)) halloc rfl
        (.create pool hp rfl)
  | allCreated _ _ | rootDown _ _ | rootReturns _ _ =>
      exact .quiet (tableOp_root rfl) (.refl _) (.refl rfl)
  | rootEnds _ =>
      refine .clear ?_ (.refl _) rfl fun _ => rfl
      simp only [tableOp]
      split <;> rfl
  | store _ _ _ | refill _ _ _ _ _ =>
      exact .quiet (tableOp_of_event nofun nofun nofun) ⟨rfl, rfl, fun _ => rfl⟩ (.refl rfl)
  | refillEnds hp hu _ _ _ =>
      exact .quiet (tableOp_of_event nofun nofun nofun) (.refl _) (.gone hp (by rw [hu]; rfl))
  | missing hp hu _ | gone hp hu =>
      exact .quiet (by rw [hnext _ _ hp, hu]) (.refl _) (.gone hp (by rw [hu]; rfl))
  | @fault _ u saved hp hu | @except _ u saved hp hu =>
      refine .quiet (tableOp_of_event nofun nofun nofun)
        ⟨rfl, rfl, Vm.passup_pte k.vm u.supp _ saved⟩ (.move hp rfl (by rw [hu]; rfl) ?_)
      exact Bool.eq_false_iff.mpr fun hmid =>
        nomatch (Phase.ofFate_outside _ _).1.symm.trans (Phase.midway_inside hmid)
  | acquire hp hu =>
      refine .quiet (by rw [hnext _ _ hp, hu]) (.refl _) (.move hp rfl (by rw [hu]; rfl) ?_)
      split <;> rfl
  | find hp hu _ | dealloc hp hu | notify hp hu =>
      exact .quiet (by rw [hnext _ _ hp, hu]) (.refl _) (.move hp rfl (by rw [hu]; rfl) rfl)
  | release hp hu =>
      exact .quiet (by rw [hnext _ _ hp, hu]) (.refl _) (.release hl hp hu)
  | choose hp hu => exact .choose (by rw [hnext _ _ hp, hu]) hp hu rfl
  | @evict _ _ page f q hp hu hocc hq =>
      refine .stage (by rw [hnext _ _ hp, hu]) hp hu rfl fun v hf hsame => ?_
      have hindex : k.vm.frameIndexToReplace = f := hsame.index.trans hf.symm
      have hvacate : k.vm.vacate = k.vm.markInvalid q := by
        simp only [Vm.vacate, hindex, hocc, if_true, hq]
      rw [← hvacate]
      exact hsame.vacate
  | @skip p u page f hp hu hocc =>
      have hk : k.setPhase p u (.paging page f .vacated) =
          (k.setVm k.vm).setPhase p u (.paging page f .vacated) := rfl
      refine .stage (by rw [hnext _ _ hp, hu]) hp hu hk fun v hf hsame => ?_
      have hindex : k.vm.frameIndexToReplace = f := hsame.index.trans hf.symm
      have hvacate : k.vm.vacate = k.vm := by
        simp only [Vm.vacate, hindex, hocc, Bool.false_eq_true, if_false]
      rw [← hvacate]
      exact hsame.vacate
  | writeOut hp hu _ | readIn hp hu =>
      exact .stage (by rw [hnext _ _ hp, hu]) hp hu rfl fun _ _ hsame =>
        ⟨hsame.swapTable, hsame.index, hsame.pte⟩
  | wrote hp hu | loaded hp hu =>
      exact .stage (tableOp_of_event nofun nofun nofun) hp hu rfl fun _ _ hsame =>
        ⟨hsame.swapTable, hsame.index, hsame.pte⟩
  | record hp hu =>
      exact .stage (by rw [hnext _ _ hp, hu]) hp hu rfl fun _ _ hsame => hsame.record _ _
  | map hp hu => exact .map (by rw [hnext _ _ hp, hu]) hp hu rfl

/-! ## The serial run -/

/-- The tables of `k`, when the serial run has led to `v`: the same while nobody
is midway, with what whoever is midway has begun, or the lock is held by
nobody for good. -/
inductive Serialized (v : Vm) (k : Sys) : Prop where
  | idle (same : k.vm.SameTables v)
      (nobody : ∀ {p u}, k.proc p = some u → u.phase.midway = false)
  | busy {p u page f σ} (hp : k.proc p = some u) (hu : u.phase = .paging page f σ)
      (hf : f = v.updateFrameIndexToReplace.frameIndexToReplace)
      (same : k.vm.SameTables (σ.begun page f v))
  | lost (locked : k.swapSem.value ≠ 1) (nobody : ∀ p, ¬ k.Inside p)

/-- A lock that nobody holds is lost. -/
theorem LockMove.lost (h : LockMove k e k') (hl : k.Locks) (hv : k.swapSem.value ≠ 1)
    (hno : ∀ p, ¬ k.Inside p) : k'.swapSem.value ≠ 1 ∧ ∀ p, ¬ k'.Inside p := by
  have hle := hl.value_le
  cases h with
  | same hsem hi _ => exact ⟨hsem ▸ hv, fun r hr => hno r ((hi r).mp hr)⟩
  | pass hpass => exact absurd hpass (not_not.mpr (by omega))
  | wait hneg hsem _ hi _ =>
      refine ⟨?_, fun r hr => hno r ((hi r).mp hr)⟩
      rw [hsem]
      show k.swapSem.value - 1 ≠ 1
      omega
  | leave hp _ _ _ => exact absurd hp (hno _)
  | vanish _ _ _ hsem hi _ => exact ⟨hsem ▸ hv, fun r hr => hno r (hi r hr)⟩
  | clear _ hsem hproc => exact ⟨hsem ▸ hl.clear_value hv, fun r => not_inside (hproc r)⟩

namespace Serialized

variable {v : Vm}

/-- A step that is taken while nobody is midway. -/
theorem step_idle (hsame : k.vm.SameTables v)
    (hno : ∀ {p u}, k.proc p = some u → u.phase.midway = false) (h : TableMove k e k') :
    Serialized ((tableOp ⟨k, e, k'⟩).toList.foldl Vm.exec v) k' := by
  have hstill : SameMidway k k' → ∀ {p u}, k'.proc p = some u → u.phase.midway = false := by
    intro hmid p u hp
    refine Bool.eq_false_iff.mpr fun hu => ?_
    exact nomatch (hno (hmid.new hp hu)).symm.trans hu
  cases h with
  | quiet hx hvm hmid =>
      rw [hx]
      exact .idle (hvm.trans hsame) (hstill hmid)
  | create hx _ hvm hmid =>
      rw [hx]
      refine .idle ?_ (hstill hmid)
      rw [hvm]
      exact hsame.initPagetable _ _
  | choose hx hp hu hk =>
      rw [hx]
      subst hk
      exact .busy (Sys.setPhase_self ..) rfl hsame.choose.index hsame.choose
  | stage _ hp hu _ _ | map _ hp hu _ =>
      exact nomatch (hno hp).symm.trans (congrArg Phase.midway hu)
  | clear hx hvm _ hproc =>
      rw [hx]
      exact .idle (hvm.trans hsame) fun hp => nomatch (hproc _).symm.trans hp

/-- A step that is taken while `p` is midway. -/
theorem step_busy {page : PtePtr} {f : Fin poolSize} {σ : Stage} {free : List SuppPtr}
    (hl : k.Locks) (husers : k.Users free) (hown : k.OwnPages) (hp : k.proc p = some u)
    (hu : u.phase = .paging page f σ) (hf : f = v.updateFrameIndexToReplace.frameIndexToReplace)
    (hsame : k.vm.SameTables (σ.begun page f v)) (h : TableMove k e k') :
    Serialized ((tableOp ⟨k, e, k'⟩).toList.foldl Vm.exec v) k' := by
  have hmidu : u.phase.midway = true := by
    rw [hu]
    rfl
  have hinside : k.Inside p := ⟨u, hp, Phase.midway_inside hmidu⟩
  -- at most one is inside
  have honly : ∀ {r w}, k.proc r = some w → w.phase.inside = true → r = p ∧ w = u := by
    intro r w hr hin
    obtain rfl := hl.unique ⟨w, hr, hin⟩ hinside
    exact ⟨rfl, Option.some.inj (hr.symm.trans hp)⟩
  cases h with
  | quiet hx hvm hmid =>
      rw [hx]
      exact .busy (hmid.old hp hmidu) hu hf (hvm.trans hsame)
  | @create supp asid pool hx halloc hvm hmid =>
      -- the page belongs to a structure that is in use
      have hne : page.1 ≠ supp := by
        rw [hown.page_fst hp hu]
        have huse : u.phase.uses = true := by
          rw [hu]
          rfl
        have htop := husers.pool.allocSupp.1
        rw [halloc] at htop
        exact fun he => husers.busy hp huse (he ▸ List.mem_of_head? htop.symm)
      rw [hx]
      refine .busy (hmid.old hp hmidu) hu ?_ ?_
      · exact hf
      · rw [hvm]
        have hcommute : (σ.begun page f (v.initPagetable supp asid)).SameTables _ :=
          Vm.initPagetable_begun f σ hne
        exact (hsame.initPagetable supp asid).trans hcommute.symm
  | choose _ hr hw _ =>
      obtain ⟨rfl, rfl⟩ := honly hr (by rw [hw]; rfl)
      exact nomatch hu.symm.trans hw
  | stage hx hr hw hk hvm =>
      obtain ⟨rfl, rfl⟩ := honly hr (by rw [hw]; rfl)
      obtain ⟨rfl, rfl, rfl⟩ := Phase.paging.inj (hu.symm.trans hw)
      rw [hx]
      subst hk
      exact .busy (Sys.setPhase_self ..) rfl hf (hvm v hf hsame)
  | map hx hr hw hk =>
      obtain ⟨rfl, rfl⟩ := honly hr (by rw [hw]; rfl)
      obtain ⟨rfl, rfl, rfl⟩ := Phase.paging.inj (hu.symm.trans hw)
      rw [hx]
      subst hk
      refine .idle ?_ fun {r w} hr => ?_
      · have hframe : v.updateFrameIndexToReplace.vacate.frameIndexToReplace = f :=
          (Vm.begun_index page f .invalidated).trans hf.symm
        show Vm.SameTables _ ((v.updateFrameIndexToReplace.vacate.updateSwapTableEntry
          v.updateFrameIndexToReplace.vacate.frameIndexToReplace page).markValidAndUpdateTLB page)
        rw [hframe]
        exact hsame.map page
      · rcases Sys.of_setPhase hr with ⟨-, rfl⟩ | ⟨hne, hr⟩
        · rfl
        · exact Bool.eq_false_iff.mpr fun hmid => hne (honly hr (Phase.midway_inside hmid)).1
  | clear _ _ hsem hproc =>
      have hv := hl.value_nonpos hinside
      exact .lost (hsem ▸ hl.clear_value (by omega)) fun r => not_inside (hproc r)

theorem step {free : List SuppPtr} (h : Serialized v k) (hl : k.Locks) (husers : k.Users free)
    (hown : k.OwnPages) (hs : Phase3.step k e = some k') :
    Serialized ((tableOp ⟨k, e, k'⟩).toList.foldl Vm.exec v) k' := by
  have hout := step_outcome hs
  cases h with
  | idle same nobody => exact step_idle same nobody (hout.tableMove hl)
  | busy hp hu hf same => exact step_busy hl husers hown hp hu hf same (hout.tableMove hl)
  | lost locked nobody =>
      obtain ⟨hv, hno⟩ := (hout.lockMove hl).lost hl locked nobody
      exact .lost hv hno

end Serialized

/-! ## Runs -/

theorem serial_snoc (m : Machine) (tr : List Entry) (x : Entry) :
    serial m (tr ++ [x]) = (tableOp x).toList.foldl Vm.exec (serial m tr) := by
  rw [serial, Trace.filterMap_snoc tr rfl, List.foldl_append]
  rfl

theorem Run.serialized {m : Machine} {tr : List Entry} (h : Run m tr k) :
    k.Locks ∧ (∃ free, k.Users free) ∧ k.OwnPages ∧ Serialized (serial m tr) k := by
  refine h.invariant (P := fun tr k => k.Locks ∧ (∃ free, k.Users free) ∧ k.OwnPages ∧
    Serialized (serial m tr) k) (G := fun _ => True) (fun _ _ => trivial)
    ⟨m.start_locks, ⟨_, m.start_users⟩, nofun, .idle (.refl _) nofun⟩ fun hP hs _ => ?_
  obtain ⟨hl, ⟨free, husers⟩, hown, hser⟩ := hP
  have hout := step_outcome hs
  rw [serial_snoc]
  exact ⟨(hout.lockMove hl).locks hl, (hout.useMove hl).users husers, hout.ownPages hl hown,
    hser.step hl husers hown hs⟩

/-- In every run, whoever else runs in between: while `swapSem` is free the
tables are those of the serial run, and while a U-proc is in `handleTLBInvalid`
they are those of the serial run with what it has begun. -/
theorem pager_atomic {m : Machine} {tr : List Entry} (h : Run m tr k) :
    (k.swapSem.value = 1 → k.vm.SameTables (serial m tr)) ∧
      ∀ {p u page f σ}, k.proc p = some u → u.phase = .paging page f σ →
        k.vm.SameTables (σ.begun page f (serial m tr)) := by
  obtain ⟨hl, -, -, hser⟩ := h.serialized
  cases hser with
  | idle same nobody =>
      refine ⟨fun _ => same, fun hp hu => ?_⟩
      exact nomatch (nobody hp).symm.trans (congrArg Phase.midway hu)
  | busy hr hw hf same =>
      have hin : ∀ {p u page f σ}, k.proc p = some u → u.phase = .paging page f σ →
          k.Inside p := fun hp hu => ⟨_, hp, by rw [hu]; rfl⟩
      constructor
      · intro hv
        exact absurd (hin hr hw) (hl.free hv _)
      · intro p u page f σ hp hu
        obtain rfl := hl.unique (hin hp hu) (hin hr hw)
        obtain rfl := Option.some.inj (hp.symm.trans hr)
        obtain ⟨rfl, rfl, rfl⟩ := Phase.paging.inj (hu.symm.trans hw)
        exact same
  | lost locked nobody =>
      refine ⟨fun hv => absurd hv locked, fun hp hu => ?_⟩
      exact absurd ⟨_, hp, by rw [hu]; rfl⟩ (nobody _)

end

/-- A second U-proc is created while the first waits for its page. -/
def createdMidway : List Event :=
  [.root 1, .fault 1 (firstFault 0), .next 1, .next 1, .next 1, .next 1, .next 1, .root 2,
    .flashDone 1 ready, .next 1, .next 1, .next 1]

theorem pager_atomic_createdMidway : ∃ tr k, Run .zero tr k ∧
    tr.map Trace.Entry.event = createdMidway ∧
      tr.filterMap tableOp = [.create 7 1, .create 6 2, .serve (7, 0)] ∧
        k.vm.SameTables (serial .zero tr) := by
  have hany : (Trace.exec step (Machine.start .zero) createdMidway).any (fun x =>
      x.2.swapSem.value = 1 ∧
        x.1.filterMap tableOp = [.create 7 1, .create 6 2, .serve (7, 0)]) = true := by
    decide +kernel
  obtain ⟨tr, k, hrun, hevents, h⟩ := Trace.run_of_any hany
  obtain ⟨hv, hops⟩ := of_decide_eq_true h
  exact ⟨tr, k, hrun, hevents, hops, (pager_atomic hrun).1 hv⟩

end Pandos.Phase3
