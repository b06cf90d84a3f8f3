/-
# `Pandos.Machine` — boot, events and runs

`main` of `init.c` leads from the zeroed static data to the first dispatch.
After that the nucleus runs when the BIOS calls it: for an exception
(`handleExceptions`), or for a TLB refill (`uTLBRefillHandler` of
`sysSupport.c`), each time with the processor state it has saved.  Between
two calls processes only compute, which is of interest here where they write
to the memory their semaphores live in (`Event.store`).

A run is any sequence of such events.  Its trace keeps the state before and
after each of them, so that what has happened can be counted afterwards.
-/
import Pandos.Nucleus

namespace Pandos

open QueueOps Kernel

variable {Q : Type} [QueueOps Q]

/-! ## TLB refills -/

/-- The page `getMissingPage` returns, as its index in `sup_privatePgTbl`. -/
def getMissingPage (s : Support) (badVAddr : Word) : Option (Fin maxPages) :=
  (List.finRange maxPages).find? fun i =>
    entryHiGetVpn (s.supPrivatePgTbl i).entryHi = entryHiGetVpn badVAddr

/-- `TLBWI` at `tlbIndex`, and `updateTLBIndex`. -/
def writeTLB (k : Kernel Q) (pageToWrite : PteEntry) : Kernel Q :=
  { k with
    tlb := Function.update k.tlb k.tlbIndex pageToWrite
    tlbIndex := k.tlbIndex + 1 }

/-- A page that is not found ends the process inside `getMissingPage`. -/
def uTLBRefillHandler (fuel : Nat) (hw : Hw) (k : Kernel Q) (badVAddr : Word) :
    Option (Kernel Q) := do
  let cur ← k.currentProcess
  let a := k.pSupportStruct cur
  guard (a ≠ 0)
  match getMissingPage (k.supp a) badVAddr with
  | none => sysTermProcess fuel hw k cur
  | some i => return loadProcess (writeTLB k ((k.supp a).supPrivatePgTbl i)) cur

/-! ## Boot -/

/-- What does not start as zeros: the memory outside the nucleus, and where
things are. -/
structure Memory where
  layout : Layout
  mem : Word → Int
  supp : Word → Support
  tlb : Fin tlbSize → PteEntry
  devReg : Word → Word → DevReg
  testPhase3 : Word
  ramTop : Word

def zeroState : State := ⟨0, 0, 0, 0, fun _ => 0, 0, 0⟩

/-- The static data of the nucleus, all zero. -/
def Memory.powerOn (m : Memory) : Kernel Queues where
  layout := m.layout
  tree := .empty
  pS := fun _ => zeroState
  pTime := fun _ => 0
  pSupportStruct := fun _ => 0
  processCount := 0
  softBlockedCount := 0
  currentProcess := none
  startT := 0
  mem := fun a => if m.layout.IsDevice a then 0 else m.mem a
  supp := m.supp
  biosDataPage := zeroState
  tlb := m.tlb
  tlbIndex := 0
  devReg := m.devReg
  timer := 0
  intervalTimer := 0
  cpu := .halted
  q :=
    { links := ⟨fun _ => none, fun _ => none⟩, pSemAdd := fun _ => 0, pcbFreeH := none
      readyQueue := none, sNext := fun _ => none, sSemAdd := fun _ => 0
      sProcQ := fun _ => none, semdFreeH := none, semdH := none }

/-- `IECON | IMON | TEBITON` -/
abbrev firstStatus : Word := 0x00000001 ||| 0x0000FF00 ||| 0x08000000

def initFirstProcess (m : Memory) (k : Kernel Queues) : Option (Kernel Queues) := do
  let (firstProcess, k) ← allocPcb k
  match firstProcess with
  | none => return k.panic
  | some p =>
      let state := k.pS p
      let gpr := Function.update state.gpr 24 m.testPhase3
      let k := k.setState p { state with
        gpr := Function.update gpr 26 m.ramTop, pcEpc := m.testPhase3, status := firstStatus }
      let k := { k with
        pTime := Function.update k.pTime p 0
        pSupportStruct := Function.update k.pSupportStruct p 0
        q := { k.q with pSemAdd := Function.update k.q.pSemAdd p 0 } }
      insertProcQReady k p

def main (m : Memory) (hw : Hw) : Option (Kernel Queues) := do
  let k := m.powerOn
  let k := { k with q := initASL (initPcbs k.q) }
  let k := { k with currentProcess := none, q := { k.q with readyQueue := mkEmptyProcQ } }
  let k := k.setMem k.layout.clockSemaphore 0
  let k := { k with intervalTimer := 100000 }
  let k ← initFirstProcess m k
  scheduler hw k

/-! ## Events -/

inductive Event where
  | exception (saved : State) (hw : Hw)
  | refill (saved : State) (badVAddr : Word) (hw : Hw)
  | store (a : Word) (v : Int)

/-- While it waits, the processor takes interrupts only. -/
def takesException (cpu : Cpu) (cause : Word) : Bool :=
  cpu.busy || (cpu = .waiting && causeGetExcCode cause = excInt)

/-- One event; `fuel` bounds the depth of `terminate_Process_rec`. -/
def step (fuel : Nat) (k : Kernel Q) : Event → Option (Kernel Q)
  | .exception saved hw =>
      if takesException k.cpu saved.cause then
        handleExceptions fuel hw { k with biosDataPage := saved, devReg := hw.devReg }
      else none
  | .refill saved badVAddr hw =>
      if k.cpu.busy then uTLBRefillHandler fuel hw { k with biosDataPage := saved } badVAddr
      else none
  | .store a v => if k.cpu.busy then some (k.setMem a v) else none

/-- The event is handled, and leads from `k` to `k'`. -/
def Step (k : Kernel Q) (e : Event) (k' : Kernel Q) : Prop := ∃ fuel, step fuel k e = some k'

/-- One entry of a trace. -/
structure Trans (Q : Type) where
  before : Kernel Q
  event : Event
  after : Kernel Q

/-- Runs, with their traces. -/
inductive Run (k₀ : Kernel Q) : List (Trans Q) → Kernel Q → Prop where
  | nil : Run k₀ [] k₀
  | snoc {tr k e k'} : Run k₀ tr k → Step k e k' → Run k₀ (tr ++ [⟨k, e, k'⟩]) k'

/-- The state after boot. -/
def Boot (k : Kernel Queues) : Prop := ∃ m hw, main m hw = some k

/-- The states between two exceptions, in any run from boot. -/
def Reachable (k : Kernel Queues) : Prop := ∃ k₀ tr, Boot k₀ ∧ Run k₀ tr k

end Pandos
