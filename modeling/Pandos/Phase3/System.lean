/-
# `Pandos.Phase3.System` — `test_phase_3` and its U-procs

The root process initialises the structures of the support level, creates
eight U-procs and waits for each of them to end.  A U-proc computes, takes TLB
refills, page faults and exceptions, and may block in the pager; so the
support level is a system of processes that share the page tables, the swap
pool, the TLB and the two semaphores.  `step` says what one event does to it,
and `Run` is any sequence of events from `test_phase_3` on: in later modules a
result is about every run, and what it assumes it says of the entries of the
trace.

`Phase` is how far a process has come in the pager or in `terminate_support`.
One step of a process leads from a phase to the next, and the steps of
different processes interleave freely.  System calls are taken at their word:
`P` and `V` are the operations of `Pandos.Lib.Semaphore`, an `IOWAIT` blocks
until the device has answered, and `TERMPROCESS` takes the process away.

What is one step here is not always one in the machine:

    markInvalid, markValidAndUpdateTLB    interrupts are disabled
    one system call, one command          the nucleus does it at once, or the device
    the rest of the pager                 only a process that holds swapSem is there
    a round of initUProcs, dealloc_supp   nothing disables interrupts in them

For the last line that is an assumption: two processes in `alloc_supp` and
`dealloc_supp` at the same time could lose a support structure.

Some things do not happen here at all.  A U-proc makes no nucleus calls of its
own, although `init_uproc_state` leaves it in kernel mode.  A handler that
returns leaves its process `stray`, which takes no more steps.  And a store
goes to the physical page that the page table entry gives, if it is valid, not
through the TLB.
-/
import Pandos.Handlers
import Pandos.Lib.Semaphore
import Pandos.Lib.Trace
import Pandos.Phase3.Pager

namespace Pandos.Phase3

open Semaphore

/-! ## States -/

/-- Where `handleTLBInvalid` is, once the frame is chosen. -/
inductive Stage where
  | chosen
  | invalidated
  | writing (dev : Int)
  | vacated
  | reading (dev : Int)
  | loaded
  | recorded
deriving DecidableEq

/-- `page` is `missingPage`, and `frame` the index of `frameToReplace`. -/
inductive Phase where
  | user
  | acquiring
  | waiting
  | holding
  | found (page : PtePtr)
  | paging (page : PtePtr) (frame : Fin poolSize) (stage : Stage)
  | mapped
  | terminating
  | deallocated
  | notified
  | stray
deriving DecidableEq

/-- A U-proc, with the ASID in its processor state. -/
structure Uproc where
  asid : Word
  supp : SuppPtr
  phase : Phase

/-- `EntryHi` for an access to an address. -/
def Uproc.entryHi (u : Uproc) (badVAddr : Word) : Word :=
  (badVAddr &&& 0xFFFFF000) ||| (u.asid <<< asidShift)

/-- Where `test_phase_3` is; `i` is the counter of the loop. -/
inductive Root where
  | creating (i : Nat)
  | waiting (i : Nat)
  | blocked (i : Nat)
  | returned
  | ended
deriving DecidableEq

structure Sys where
  vm : Vm
  pool : Pool
  swapSem : Sem PcbPtr
  masterSem : Sem Unit
  proc : PcbPtr → Option Uproc
  root : Root

namespace Sys

variable (k : Sys)

def setVm (vm : Vm) : Sys := { k with vm := vm }

def setPhase (p : PcbPtr) (u : Uproc) (φ : Phase) : Sys :=
  { k with proc := Function.update k.proc p (some { u with phase := φ }) }

/-- `SYSCALL(TERMPROCESS)` of a U-proc. -/
def termProcess (p : PcbPtr) : Sys := { k with proc := Function.update k.proc p none }

/-! ## Semaphores -/

/-- `SYSCALL(PASSEREN, &swapSem)` -/
def passerenSwap (p : PcbPtr) (u : Uproc) : Sys :=
  { k with swapSem := k.swapSem.step (.down p) }.setPhase p u
    (if k.swapSem.value - 1 < 0 then .waiting else .holding)

/-- The first of the queue returns from its `P`. -/
def wakeSwap : Sys :=
  { k with
    proc := match k.swapSem.queue with
      | [] => k.proc
      | p :: _ =>
          match k.proc p with
          | none => k.proc
          | some u => (k.setPhase p u .holding).proc }

/-- `SYSCALL(VERHOGEN, &swapSem)`, and the `LDST` of `handlePageFault`. -/
def verhogenSwap (p : PcbPtr) (u : Uproc) : Sys :=
  { k.wakeSwap.setPhase p u .user with swapSem := k.swapSem.step .up }

/-- `notifyTerminated` -/
def notifyTerminated : Sys :=
  { k with
    masterSem := k.masterSem.step .up
    root := match k.root with
      | .blocked i => .waiting (i + 1)
      | r => r }

end Sys

/-! ## Exceptions -/

/-- Where a handler leaves its process.  `SYSCALL(TERMINATE)` comes back to
`handleSupportSystemcalls`, and a service returns to the U-proc in the end;
what happens when the handler itself returns is not modelled. -/
def Phase.ofFate (excState : State) : Fate → Phase
  | .serves .terminateSupport | .sysTerminate => .terminating
  | .serves s => if s.refuses excState then .terminating else .user
  | .pages => .acquiring
  | .returns => .stray

def handleSupportLevelExceptions (s : Support) : Phase :=
  .ofFate (s.supExceptState generalExcept) (Pandos.handleSupportLevelExceptions s.supExceptState)

/-- `handlePageFault`, up to the `P`. -/
def handlePageFault (s : Support) : Phase :=
  .ofFate (s.supExceptState pgFaultExcept) (Pandos.handlePageFault s.supExceptState)

/-- `copyState((state_t *) BIOSDATAPAGE, &supp->sup_exceptState[exceptionType])` -/
def Vm.passup (vm : Vm) (supp : SuppPtr) (exceptionType : Fin 2) (saved : State) : Vm :=
  { vm with
    supp := Function.update vm.supp supp { vm.supp supp with
      supExceptState := Function.update (vm.supp supp).supExceptState exceptionType
        (copyState saved ((vm.supp supp).supExceptState exceptionType)) } }

/-! ## Steps -/

namespace Sys

variable (k : Sys)

/-- `handleTLBInvalid`, once the frame is chosen.  While a flash device works
there is no step. -/
def pageIn (p : PcbPtr) (u : Uproc) (page : PtePtr) (frame : Fin poolSize) :
    Stage → Option Sys
  | .chosen =>
      if frameIsOccupied (k.vm.swapTable frame) then
        (k.vm.swapTable frame).swPte.map fun q =>
          (k.setVm (k.vm.markInvalid q)).setPhase p u (.paging page frame .invalidated)
      else some (k.setPhase p u (.paging page frame .vacated))
  | .invalidated =>
      (k.vm.swapTable frame).swPte.map fun q =>
        (k.setVm (k.vm.writeFromPoolToDev (k.vm.swapTable frame) q)).setPhase p u
          (.paging page frame (.writing ((k.vm.swapTable frame).swAsid - 1)))
  | .writing _ => none
  | .vacated =>
      some ((k.setVm (k.vm.writeFromDevToPool page)).setPhase p u
        (.paging page frame (.reading (devNo (k.vm.pte page).entryHi))))
  | .reading _ => none
  | .loaded =>
      some ((k.setVm (k.vm.updateSwapTableEntry frame page)).setPhase p u
        (.paging page frame .recorded))
  | .recorded => some ((k.setVm (k.vm.markValidAndUpdateTLB page)).setPhase p u .mapped)

/-- The next step of a process in the pager or in `terminate_support`. -/
def next (p : PcbPtr) (u : Uproc) : Option Sys :=
  match u.phase with
  | .user => none
  | .acquiring => some (k.passerenSwap p u)
  | .waiting => none
  | .holding =>
      match getMissingPageFromSupp (k.vm.supp u.supp) with
      | none => some (k.termProcess p)
      | some i => some (k.setPhase p u (.found (u.supp, i)))
  | .found page =>
      let vm := k.vm.updateFrameIndexToReplace
      some ((k.setVm vm).setPhase p u (.paging page vm.frameIndexToReplace .chosen))
  | .paging page frame stage => k.pageIn p u page frame stage
  | .mapped => some (k.verhogenSwap p u)
  | .terminating =>
      some ({ k with pool := k.pool.deallocSupp (some u.supp) }.setPhase p u .deallocated)
  | .deallocated => some (k.notifyTerminated.setPhase p u .notified)
  | .notified => some (k.termProcess p)
  | .stray => none

/-- The flash device a process waits for has answered; `IOWAIT` returns the
status, which nobody looks at. -/
def flashDone (p : PcbPtr) (u : Uproc) (status : Word) : Option Sys :=
  match u.phase with
  | .paging page frame (.writing d) =>
      some ((k.setVm (k.vm.answer d status)).setPhase p u (.paging page frame .vacated))
  | .paging page frame (.reading d) =>
      some ((k.setVm (k.vm.answer d status)).setPhase p u (.paging page frame .loaded))
  | _ => none

/-- `uTLB_RefillHandler` -/
def refill (p : PcbPtr) (u : Uproc) (badVAddr : Word) : Sys :=
  match getMissingPage (k.vm.supp u.supp) badVAddr with
  | none => k.termProcess p
  | some i => k.setVm (k.vm.refillTLB (k.vm.pte (u.supp, i)))

/-- What becomes of `supp` and the PCB `p`, when they are given to a new U-proc. -/
def create (p : PcbPtr) (asid : Word) (supp : SuppPtr) (pool : Pool) : Sys :=
  let s := initUprocPagetable { k.vm.supp supp with supAsid := asid }
  { k with
    vm := { k.vm with supp := Function.update k.vm.supp supp s }
    pool := pool
    proc := Function.update k.proc p (some ⟨asid, supp, .user⟩) }

/-- One round of the loop of `initUProcs`; the new process gets the PCB `p`. -/
def initUProc (p : PcbPtr) (asid : Word) : Option Sys :=
  match k.pool.allocSupp, k.proc p with
  | (some supp, pool), none => some (k.create p asid supp pool)
  | _, _ => none

/-- The last call of `test_phase_3` ends its children too. -/
def termAll : Sys :=
  { k with
    swapSem := k.swapSem.step (.drop fun _ => true)
    proc := fun _ => none
    root := .ended }

/-- The next step of `test_phase_3`. -/
def rootStep (p : PcbPtr) : Option Sys :=
  match k.root with
  | .creating i =>
      if i < uprocMax then
        (k.initUProc p (BitVec.ofNat 32 (i + 1))).map fun k => { k with root := .creating (i + 1) }
      else some { k with root := .waiting 0 }
  | .waiting i =>
      if i < uprocMax then
        some { k with
          masterSem := k.masterSem.step (.down ())
          root := if k.masterSem.value - 1 < 0 then .blocked i else .waiting (i + 1) }
      else some { k with root := .returned }
  | .blocked _ => none
  | .returned => some k.termAll
  | .ended => none

end Sys

/-! ## Events -/

/-- The ASIDs of U-procs. -/
def UprocAsid (asid : Word) : Prop := 1 ≤ asid ∧ asid ≤ 8

instance (asid : Word) : Decidable (UprocAsid asid) := inferInstanceAs (Decidable (_ ∧ _))

/-- `spawn` creates one more U-proc the way `initUProcs` does. -/
inductive Event where
  | root (p : PcbPtr)
  | spawn (p : PcbPtr) (asid : Word)
  | store (p : PcbPtr) (i : Fin maxPages) (offset : Fin 1024) (v : Word)
  | refill (p : PcbPtr) (badVAddr : Word)
  | fault (p : PcbPtr) (saved : State)
  | except (p : PcbPtr) (saved : State)
  | next (p : PcbPtr)
  | flashDone (p : PcbPtr) (status : Word)

/-- What can only happen while the process computes. -/
def Sys.whenUser (k : Sys) (p : PcbPtr) (f : Uproc → Option Sys) : Option Sys :=
  (k.proc p).bind fun u => if u.phase = .user then f u else none

/-- `v` is stored in the physical page `frame`. -/
def Vm.poke (vm : Vm) (frame : Nat) (offset : Fin 1024) (v : Word) : Vm :=
  { vm with ram := Function.update vm.ram frame (Function.update (vm.ram frame) offset v) }

def step (k : Sys) : Event → Option Sys
  | .root p => k.rootStep p
  | .spawn p asid => if UprocAsid asid then k.initUProc p asid else none
  | .store p i offset v => k.whenUser p fun u =>
      let e := k.vm.pte (u.supp, i)
      if pteEntryIsValid e then
        some (k.setVm (k.vm.poke (entryLoGetPfn e.entryLo).toNat offset v))
      else none
  | .refill p badVAddr => k.whenUser p fun u =>
      if 0x80000000 ≤ badVAddr ∧ tlbp k.vm.tlb (u.entryHi badVAddr) = none then
        some (k.refill p u badVAddr)
      else none
  | .fault p saved => k.whenUser p fun u =>
      let vm := k.vm.passup u.supp pgFaultExcept saved
      some ((k.setVm vm).setPhase p u (handlePageFault (vm.supp u.supp)))
  | .except p saved => k.whenUser p fun u =>
      let vm := k.vm.passup u.supp generalExcept saved
      some ((k.setVm vm).setPhase p u (handleSupportLevelExceptions (vm.supp u.supp)))
  | .next p => (k.proc p).bind (k.next p)
  | .flashDone p status => (k.proc p).bind fun u => k.flashDone p u status

/-! ## What a step does -/

/-- The steps, one by one. -/
inductive Outcome (k : Sys) : Event → Sys → Prop where
  | created {p i supp pool} (hroot : k.root = .creating i) (hi : i < uprocMax)
      (halloc : k.pool.allocSupp = (some supp, pool)) (hp : k.proc p = none) :
      Outcome k (.root p)
        { k.create p (BitVec.ofNat 32 (i + 1)) supp pool with root := .creating (i + 1) }
  | allCreated {p i} (hroot : k.root = .creating i) (hi : ¬ i < uprocMax) :
      Outcome k (.root p) { k with root := .waiting 0 }
  | rootDown {p i} (hroot : k.root = .waiting i) (hi : i < uprocMax) :
      Outcome k (.root p) { k with
        masterSem := k.masterSem.step (.down ())
        root := if k.masterSem.value - 1 < 0 then .blocked i else .waiting (i + 1) }
  | rootReturns {p i} (hroot : k.root = .waiting i) (hi : ¬ i < uprocMax) :
      Outcome k (.root p) { k with root := .returned }
  | rootEnds {p} (hroot : k.root = .returned) : Outcome k (.root p) k.termAll
  | spawned {p asid supp pool} (hasid : UprocAsid asid)
      (halloc : k.pool.allocSupp = (some supp, pool)) (hp : k.proc p = none) :
      Outcome k (.spawn p asid) (k.create p asid supp pool)
  | store {p u i offset v} (hp : k.proc p = some u) (hu : u.phase = .user)
      (hv : pteEntryIsValid (k.vm.pte (u.supp, i)) = true) :
      Outcome k (.store p i offset v)
        (k.setVm (k.vm.poke (entryLoGetPfn (k.vm.pte (u.supp, i)).entryLo).toNat offset v))
  | refill {p u badVAddr i} (hp : k.proc p = some u) (hu : u.phase = .user)
      (haddr : 0x80000000 ≤ badVAddr) (hmiss : tlbp k.vm.tlb (u.entryHi badVAddr) = none)
      (hi : getMissingPage (k.vm.supp u.supp) badVAddr = some i) :
      Outcome k (.refill p badVAddr) (k.setVm (k.vm.refillTLB (k.vm.pte (u.supp, i))))
  | refillEnds {p u badVAddr} (hp : k.proc p = some u) (hu : u.phase = .user)
      (haddr : 0x80000000 ≤ badVAddr) (hmiss : tlbp k.vm.tlb (u.entryHi badVAddr) = none)
      (hi : getMissingPage (k.vm.supp u.supp) badVAddr = none) :
      Outcome k (.refill p badVAddr) (k.termProcess p)
  | fault {p u saved} (hp : k.proc p = some u) (hu : u.phase = .user) :
      Outcome k (.fault p saved) ((k.setVm (k.vm.passup u.supp pgFaultExcept saved)).setPhase p u
        (handlePageFault ((k.vm.passup u.supp pgFaultExcept saved).supp u.supp)))
  | except {p u saved} (hp : k.proc p = some u) (hu : u.phase = .user) :
      Outcome k (.except p saved) ((k.setVm (k.vm.passup u.supp generalExcept saved)).setPhase p u
        (handleSupportLevelExceptions ((k.vm.passup u.supp generalExcept saved).supp u.supp)))
  | acquire {p u} (hp : k.proc p = some u) (hu : u.phase = .acquiring) :
      Outcome k (.next p) (k.passerenSwap p u)
  | missing {p u} (hp : k.proc p = some u) (hu : u.phase = .holding)
      (hi : getMissingPageFromSupp (k.vm.supp u.supp) = none) :
      Outcome k (.next p) (k.termProcess p)
  | find {p u i} (hp : k.proc p = some u) (hu : u.phase = .holding)
      (hi : getMissingPageFromSupp (k.vm.supp u.supp) = some i) :
      Outcome k (.next p) (k.setPhase p u (.found (u.supp, i)))
  | choose {p u page} (hp : k.proc p = some u) (hu : u.phase = .found page) :
      Outcome k (.next p) ((k.setVm k.vm.updateFrameIndexToReplace).setPhase p u
        (.paging page k.vm.updateFrameIndexToReplace.frameIndexToReplace .chosen))
  | evict {p u page frame q} (hp : k.proc p = some u) (hu : u.phase = .paging page frame .chosen)
      (hocc : frameIsOccupied (k.vm.swapTable frame) = true)
      (hq : (k.vm.swapTable frame).swPte = some q) :
      Outcome k (.next p)
        ((k.setVm (k.vm.markInvalid q)).setPhase p u (.paging page frame .invalidated))
  | skip {p u page frame} (hp : k.proc p = some u) (hu : u.phase = .paging page frame .chosen)
      (hocc : frameIsOccupied (k.vm.swapTable frame) = false) :
      Outcome k (.next p) (k.setPhase p u (.paging page frame .vacated))
  | writeOut {p u page frame q} (hp : k.proc p = some u)
      (hu : u.phase = .paging page frame .invalidated)
      (hq : (k.vm.swapTable frame).swPte = some q) :
      Outcome k (.next p) ((k.setVm (k.vm.writeFromPoolToDev (k.vm.swapTable frame) q)).setPhase p u
        (.paging page frame (.writing ((k.vm.swapTable frame).swAsid - 1))))
  | readIn {p u page frame} (hp : k.proc p = some u) (hu : u.phase = .paging page frame .vacated) :
      Outcome k (.next p) ((k.setVm (k.vm.writeFromDevToPool page)).setPhase p u
        (.paging page frame (.reading (devNo (k.vm.pte page).entryHi))))
  | record {p u page frame} (hp : k.proc p = some u) (hu : u.phase = .paging page frame .loaded) :
      Outcome k (.next p) ((k.setVm (k.vm.updateSwapTableEntry frame page)).setPhase p u
        (.paging page frame .recorded))
  | map {p u page frame} (hp : k.proc p = some u) (hu : u.phase = .paging page frame .recorded) :
      Outcome k (.next p) ((k.setVm (k.vm.markValidAndUpdateTLB page)).setPhase p u .mapped)
  | release {p u} (hp : k.proc p = some u) (hu : u.phase = .mapped) :
      Outcome k (.next p) (k.verhogenSwap p u)
  | dealloc {p u} (hp : k.proc p = some u) (hu : u.phase = .terminating) :
      Outcome k (.next p)
        ({ k with pool := k.pool.deallocSupp (some u.supp) }.setPhase p u .deallocated)
  | notify {p u} (hp : k.proc p = some u) (hu : u.phase = .deallocated) :
      Outcome k (.next p) (k.notifyTerminated.setPhase p u .notified)
  | gone {p u} (hp : k.proc p = some u) (hu : u.phase = .notified) :
      Outcome k (.next p) (k.termProcess p)
  | wrote {p u page frame d status} (hp : k.proc p = some u)
      (hu : u.phase = .paging page frame (.writing d)) :
      Outcome k (.flashDone p status)
        ((k.setVm (k.vm.answer d status)).setPhase p u (.paging page frame .vacated))
  | loaded {p u page frame d status} (hp : k.proc p = some u)
      (hu : u.phase = .paging page frame (.reading d)) :
      Outcome k (.flashDone p status)
        ((k.setVm (k.vm.answer d status)).setPhase p u (.paging page frame .loaded))

section
variable {k k' : Sys} {p : PcbPtr} {u : Uproc}

theorem initUProc_eq {asid : Word} (h : k.initUProc p asid = some k') : ∃ supp pool,
    k.pool.allocSupp = (some supp, pool) ∧ k.proc p = none ∧ k' = k.create p asid supp pool := by
  unfold Sys.initUProc at h
  split at h
  next supp pool halloc hp => exact ⟨supp, pool, halloc, hp, (Option.some.inj h).symm⟩
  next => exact nomatch h

theorem rootStep_outcome (h : k.rootStep p = some k') : Outcome k (.root p) k' := by
  unfold Sys.rootStep at h
  split at h
  next i hroot =>
    split at h
    next hi =>
      obtain ⟨k₁, hk₁, rfl⟩ := Option.map_eq_some_iff.mp h
      obtain ⟨supp, pool, halloc, hp, rfl⟩ := initUProc_eq hk₁
      exact .created hroot hi halloc hp
    next hi =>
      obtain rfl := Option.some.inj h
      exact .allCreated hroot hi
  next i hroot =>
    split at h
    next hi =>
      obtain rfl := Option.some.inj h
      exact .rootDown hroot hi
    next hi =>
      obtain rfl := Option.some.inj h
      exact .rootReturns hroot hi
  next => exact nomatch h
  next hroot =>
    obtain rfl := Option.some.inj h
    exact .rootEnds hroot
  next => exact nomatch h

theorem pageIn_outcome {page : PtePtr} {frame : Fin poolSize} {stage : Stage}
    (hp : k.proc p = some u) (hu : u.phase = .paging page frame stage)
    (h : k.pageIn p u page frame stage = some k') : Outcome k (.next p) k' := by
  cases stage with
  | chosen =>
      simp only [Sys.pageIn] at h
      split at h
      next hocc =>
        obtain ⟨q, hq, rfl⟩ := Option.map_eq_some_iff.mp h
        exact .evict hp hu hocc hq
      next hocc =>
        obtain rfl := Option.some.inj h
        exact .skip hp hu (by simpa using hocc)
  | invalidated =>
      obtain ⟨q, hq, rfl⟩ := Option.map_eq_some_iff.mp h
      exact .writeOut hp hu hq
  | writing _ => exact nomatch h
  | vacated =>
      obtain rfl := Option.some.inj h
      exact .readIn hp hu
  | reading _ => exact nomatch h
  | loaded =>
      obtain rfl := Option.some.inj h
      exact .record hp hu
  | recorded =>
      obtain rfl := Option.some.inj h
      exact .map hp hu

theorem next_outcome (hp : k.proc p = some u) (h : k.next p u = some k') :
    Outcome k (.next p) k' := by
  unfold Sys.next at h
  cases hu : u.phase with
  | user | waiting | stray => simp only [hu, reduceCtorEq] at h
  | acquiring =>
      simp only [hu, Option.some.injEq] at h
      exact h ▸ .acquire hp hu
  | holding =>
      simp only [hu] at h
      split at h
      next hi =>
        obtain rfl := Option.some.inj h
        exact .missing hp hu hi
      next i hi =>
        obtain rfl := Option.some.inj h
        exact .find hp hu hi
  | found page =>
      simp only [hu, Option.some.injEq] at h
      exact h ▸ .choose hp hu
  | paging page frame stage =>
      simp only [hu] at h
      exact pageIn_outcome hp hu h
  | mapped =>
      simp only [hu, Option.some.injEq] at h
      exact h ▸ .release hp hu
  | terminating =>
      simp only [hu, Option.some.injEq] at h
      exact h ▸ .dealloc hp hu
  | deallocated =>
      simp only [hu, Option.some.injEq] at h
      exact h ▸ .notify hp hu
  | notified =>
      simp only [hu, Option.some.injEq] at h
      exact h ▸ .gone hp hu

theorem flashDone_outcome {status : Word} (hp : k.proc p = some u)
    (h : k.flashDone p u status = some k') : Outcome k (.flashDone p status) k' := by
  unfold Sys.flashDone at h
  split at h
  next hu =>
    obtain rfl := Option.some.inj h
    exact .wrote hp hu
  next hu =>
    obtain rfl := Option.some.inj h
    exact .loaded hp hu
  next => exact nomatch h

theorem whenUser_eq {f : Uproc → Option Sys} (h : k.whenUser p f = some k') :
    ∃ u, k.proc p = some u ∧ u.phase = .user ∧ f u = some k' := by
  obtain ⟨u, hp, h⟩ := Option.bind_eq_some_iff.mp h
  obtain ⟨hu, h⟩ := Option.ite_none_right_eq_some.mp h
  exact ⟨u, hp, hu, h⟩

theorem step_outcome {e : Event} (h : step k e = some k') : Outcome k e k' := by
  cases e with
  | root p => exact rootStep_outcome h
  | spawn p asid =>
      obtain ⟨hasid, h⟩ := Option.ite_none_right_eq_some.mp h
      obtain ⟨supp, pool, halloc, hp, rfl⟩ := initUProc_eq h
      exact .spawned hasid halloc hp
  | store p i offset v =>
      obtain ⟨u, hp, hu, h⟩ := whenUser_eq h
      obtain ⟨hv, h⟩ := Option.ite_none_right_eq_some.mp h
      obtain rfl := Option.some.inj h
      exact .store hp hu hv
  | refill p badVAddr =>
      obtain ⟨u, hp, hu, h⟩ := whenUser_eq h
      obtain ⟨⟨haddr, hmiss⟩, h⟩ := Option.ite_none_right_eq_some.mp h
      obtain rfl := Option.some.inj h
      unfold Sys.refill
      split
      next hi => exact .refillEnds hp hu haddr hmiss hi
      next i hi => exact .refill hp hu haddr hmiss hi
  | fault p saved =>
      obtain ⟨u, hp, hu, h⟩ := whenUser_eq h
      obtain rfl := Option.some.inj h
      exact .fault hp hu
  | except p saved =>
      obtain ⟨u, hp, hu, h⟩ := whenUser_eq h
      obtain rfl := Option.some.inj h
      exact .except hp hu
  | next p =>
      obtain ⟨u, hp, h⟩ := Option.bind_eq_some_iff.mp h
      exact next_outcome hp h
  | flashDone p status =>
      obtain ⟨u, hp, h⟩ := Option.bind_eq_some_iff.mp h
      exact flashDone_outcome hp h

end

/-! ## Runs -/

/-- What is there before `test_phase_3`: the TLB holds nothing of a U-proc. -/
structure Machine where
  tlb : Fin tlbSize → PteEntry
  dtp : Int → Dtp
  ram : Nat → Page
  flash : Int → Nat → Page
  tlb_free : ∀ i, ¬ UprocAsid (entryHiGetAsid (tlb i).entryHi)

/-- Everything is zero. -/
def Machine.zero : Machine where
  tlb := fun _ => ⟨0, 0⟩
  dtp := fun _ => ⟨0, 0⟩
  ram := fun _ _ => 0
  flash := fun _ _ _ => 0
  tlb_free := by decide

/-- The saved state at a page fault on the page `i` of the U-proc with ASID 1. -/
def firstFault (i : Fin maxPages) : State :=
  { zeroState with cause := 8, entryHi := pageHi 1 i }

/-- The first U-proc has a page fault, up to the choice of a frame. -/
def faultOn (i : Fin maxPages) : List Event :=
  [.fault 1 (firstFault i), .next 1, .next 1, .next 1]

/-- The victim is made invalid and written back. -/
def writesBack : List Event := [.next 1, .next 1, .flashDone 1 ready]

/-- The missing page is brought in, and the U-proc goes on. -/
def readsIn : List Event := [.next 1, .flashDone 1 ready, .next 1, .next 1, .next 1]

/-- The first sixteen pages fill the free frames. -/
def fillsPool : List Event :=
  (List.finRange poolSize).flatMap fun i => faultOn (i.castLE (by decide)) ++ .next 1 :: readsIn

/-- The saved state at `SYSCALL(TERMINATE)`. -/
def terminates : State := { zeroState with gpr := Function.update zeroState.gpr 3 terminate }

/-- The static `uproc_supp[i]`. -/
def zeroSupport : Support := ⟨0, fun _ => zeroState, fun _ => ⟨0, 0, 0⟩, fun _ => ⟨0, 0⟩⟩

/-- `test_phase_3` at `initUProcs`. -/
def Machine.start (m : Machine) : Sys where
  vm :=
    { swapTable := fun _ => ⟨-1, 0, none⟩
      frameIndexToReplace := 0
      supp := fun _ => zeroSupport
      tlb := m.tlb
      tlbIndex := 0
      dtp := m.dtp
      ram := m.ram
      flash := m.flash }
  pool := Pool.empty.initSuppStack
  swapSem := ⟨1, []⟩
  masterSem := ⟨0, []⟩
  proc := fun _ => none
  root := .creating 0

abbrev Entry := Trace.Entry Sys Event

/-- A run of the system from `test_phase_3` on. -/
abbrev Run (m : Machine) (tr : List Entry) (k : Sys) : Prop := Trace.Run step m.start tr k

end Pandos.Phase3
