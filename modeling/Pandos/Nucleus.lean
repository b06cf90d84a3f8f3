/-
# `Pandos.Nucleus` — the nucleus as a state machine

The handlers of `exceptions.c`, `nucleousSystemCalls.c`, `interrupts.c` and
`scheduler.c`, and `main`.  A handler ends by handing the processor over
(`LDST`, `LDCXT`, `WAIT`, `HALT`, `PANIC` do not return), so it is a function
from the state at its entry to the state at that point, and `Kernel.cpu` says
what the processor does next.

`none` is a call that does not come back: the nucleus itself follows a null
or misaligned pointer or indexes `deviceSemaphores` out of bounds, or a loop
never ends.

The queues are reached through `QueueOps`, so that one text of the handlers
serves the pointer structures of `pcb.c` and `asl.c` (`Queues`) and the lists
they stand for (`Pandos.Fifos`).

What the hardware and the memory outside the nucleus answer during one
exception is its `Hw`: the time of day (read at the entry, `stopT`, and at a
dispatch, `startT`), the local timer, the device registers and bitmaps, the
state a `CREATEPROCESS` points to, and the state the BIOS saves when the
nucleus itself issues a `TERMPROCESS`.
-/
import Pandos.Pcb
import Pandos.Tree

namespace Pandos

/-! ## Devices and semaphore memory -/

abbrev deviceNum : Nat := 49
abbrev pltInt : Nat := 1
abbrev interTimeInt : Nat := 2
abbrev diskInt : Nat := 3
abbrev flashInt : Nat := 4
abbrev netwInt : Nat := 5
abbrev prntInt : Nat := 6
abbrev termInt : Nat := 7
abbrev devPerLine : Nat := 8
abbrev ready : Word := 1
abbrev ack : Word := 1

/-- `devreg_t`: four words, read as a `dtpreg_t` or as a `termreg_t`. -/
structure DevReg where
  word0 : Word
  word1 : Word
  word2 : Word
  word3 : Word
deriving DecidableEq

namespace DevReg

def status (d : DevReg) : Word := d.word0
def recvStatus (d : DevReg) : Word := d.word0
def transmStatus (d : DevReg) : Word := d.word2
def setCommand (d : DevReg) (v : Word) : DevReg := { d with word1 := v }
def setRecvCommand (d : DevReg) (v : Word) : DevReg := { d with word1 := v }
def setTransmCommand (d : DevReg) (v : Word) : DevReg := { d with word3 := v }

end DevReg

/-- Where `deviceSemaphores` lies. -/
structure Layout where
  deviceSemaphores : Word
  nonzero : 0 < deviceSemaphores.toNat
  aligned : deviceSemaphores.toNat % 4 = 0
  fits : deviceSemaphores.toNat + 4 * deviceNum ≤ 2 ^ 32

/-- `&deviceSemaphores[i]` -/
def Layout.semAdd (l : Layout) (i : Word) : Word := l.deviceSemaphores + 4 * i

/-- `&clockSemaphore` -/
def Layout.clockSemaphore (l : Layout) : Word := l.semAdd 48

/-- An integer can be read and written at `a`. -/
def accessible (a : Word) : Bool := a ≠ 0 ∧ a.toNat % 4 = 0

namespace Layout

variable (l : Layout)

theorem semAdd_toNat {i : Nat} (hi : i < deviceNum) :
    (l.semAdd (BitVec.ofNat 32 i)).toNat = l.deviceSemaphores.toNat + 4 * i := by
  have hfits := l.fits
  simp only [deviceNum] at hi hfits
  have h4 : (4 : Word).toNat = 4 := rfl
  have hmod : i % 2 ^ 32 = i := Nat.mod_eq_of_lt (by omega)
  rw [semAdd, BitVec.toNat_add, BitVec.toNat_mul, BitVec.toNat_ofNat, h4, hmod]
  omega

theorem semAdd_accessible {i : Nat} (hi : i < deviceNum) :
    accessible (l.semAdd (BitVec.ofNat 32 i)) := by
  have h := l.semAdd_toNat hi
  have h1 := l.nonzero
  have h2 := l.aligned
  simp only [accessible, decide_eq_true_eq]
  refine ⟨fun e => ?_, by omega⟩
  rw [e, show (0 : Word).toNat = 0 from rfl] at h
  omega

/-- The entries of `deviceSemaphores` have different addresses. -/
theorem semAdd_inj {i j : Nat} (hi : i < deviceNum) (hj : j < deviceNum)
    (h : l.semAdd (BitVec.ofNat 32 i) = l.semAdd (BitVec.ofNat 32 j)) : i = j := by
  have h1 := l.semAdd_toNat hi
  have h2 := l.semAdd_toNat hj
  rw [h] at h1
  omega

/-- `a` is the address of an entry of `deviceSemaphores`. -/
def IsDevice (a : Word) : Prop := ∃ i : Fin deviceNum, a = l.semAdd (BitVec.ofNat 32 i)

instance (a : Word) : Decidable (l.IsDevice a) := inferInstanceAs (Decidable (∃ _, _))

theorem isDevice_semAdd {i : Word} (hi : i.toNat < deviceNum) : l.IsDevice (l.semAdd i) :=
  ⟨⟨i.toNat, hi⟩, by simp⟩

theorem isDevice_clockSemaphore : l.IsDevice l.clockSemaphore := ⟨48, rfl⟩

variable {l}

theorem IsDevice.accessible {a : Word} (h : l.IsDevice a) : accessible a := by
  obtain ⟨i, rfl⟩ := h
  exact l.semAdd_accessible i.isLt

end Layout

def getSemIndex (interruptLine deviceNo : Word) (termIsRECV : Bool) : Option Word :=
  if interruptLine = 2 then some 48
  else if interruptLine = 3 ∨ interruptLine = 4 ∨ interruptLine = 5 ∨ interruptLine = 6 then
    some ((interruptLine - 3) * 8 + deviceNo)
  else if interruptLine = 7 then
    if termIsRECV then some ((interruptLine - 3) * 8 + deviceNo)
    else some ((interruptLine - 3 + 1) * 8 + deviceNo)
  else none

/-! ## States -/

/-- What the processor does when the nucleus has handed it over. -/
inductive Cpu where
  | running (s : State)
  | context (c : Context)
  | waiting
  | halted
  | panicked
deriving DecidableEq

/-- Some process executes. -/
def Cpu.busy : Cpu → Bool
  | .running _ | .context _ => true
  | .waiting | .halted | .panicked => false

/-- Everything but the queues. -/
structure Shared where
  layout : Layout
  tree : Tree
  pS : PcbPtr → State
  pTime : PcbPtr → Int
  pSupportStruct : PcbPtr → Word
  processCount : Int
  softBlockedCount : Int
  currentProcess : Option PcbPtr
  startT : Int
  mem : Word → Int
  supp : Word → Support
  biosDataPage : State
  tlb : Fin tlbSize → PteEntry
  tlbIndex : Fin tlbSize
  devReg : Word → Word → DevReg
  timer : Word
  intervalTimer : Word
  cpu : Cpu

/-- The state of the nucleus over queues of type `Q`. -/
structure Kernel (Q : Type) extends Shared where
  q : Q

/-- The answers of hardware and memory during one exception. -/
structure Hw where
  stopT : Int
  startT : Int
  timer : Word
  timerEnd : Int
  timeScale : Word
  bitmap : Word → Word
  devReg : Word → Word → DevReg
  stateAt : Word → State
  nested : State

/-- The operations on queues and on `p_semAdd` the handlers use. -/
class QueueOps (Q : Type) where
  pSemAdd : Q → PcbPtr → Word
  allocPcbRing : Q → Option (Option PcbPtr × Q)
  freePcbRing : Q → PcbPtr → Option Q
  insertReady : Q → PcbPtr → Option Q
  removeReady : Q → Option (Option PcbPtr × Q)
  outReady : Q → PcbPtr → Option (Option PcbPtr × Q)
  insertBlocked : Q → Word → PcbPtr → Option (Bool × Q)
  removeBlocked : Q → Word → Option (Option PcbPtr × Q)
  outBlocked : Q → PcbPtr → Option (Option PcbPtr × Q)

instance : QueueOps Queues where
  pSemAdd := Queues.pSemAdd
  allocPcbRing := allocPcbRing
  freePcbRing := freePcbRing
  insertReady q p := do
    let (L, tp) ← insertProcQ q.links q.readyQueue p
    return { q with links := L, readyQueue := tp }
  removeReady q := do
    let (p, L, tp) ← removeProcQ q.links q.readyQueue
    return (p, { q with links := L, readyQueue := tp })
  outReady q p := do
    let (r, L, tp) ← outProcQ q.links q.readyQueue p
    return (r, { q with links := L, readyQueue := tp })
  insertBlocked := insertBlocked
  removeBlocked := removeBlocked
  outBlocked := outBlocked

open QueueOps

variable {Q : Type} [QueueOps Q]

namespace Kernel

/-- `*a = v` -/
def setMem (k : Kernel Q) (a : Word) (v : Int) : Kernel Q :=
  { k with mem := store k.mem a v }

/-- `p->p_s = s` -/
def setState (k : Kernel Q) (p : PcbPtr) (s : State) : Kernel Q :=
  { k with pS := Function.update k.pS p s }

/-- `p->p_time += d` -/
def addTime (k : Kernel Q) (p : PcbPtr) (d : Int) : Kernel Q :=
  { k with pTime := Function.update k.pTime p (k.pTime p + d) }

/-- `setTIMER(v)` -/
def setTimer (k : Kernel Q) (v : Word) : Kernel Q := { k with timer := v }

def panic (k : Kernel Q) : Kernel Q := { k with cpu := .panicked }

end Kernel

open Kernel

/-! ## `pcb.c` -/

def freePcb (k : Kernel Q) (p : PcbPtr) : Option (Kernel Q) := do
  let q ← QueueOps.freePcbRing k.q p
  return { k with q := q, processCount := k.processCount - 1 }

def allocPcb (k : Kernel Q) : Option (Option PcbPtr × Kernel Q) := do
  let (p, q) ← QueueOps.allocPcbRing k.q
  match p with
  | none => return (none, { k with q := q })
  | some p => return (some p, { k with
      q := q
      tree := k.tree.clear p
      pSupportStruct := Function.update k.pSupportStruct p 0
      pTime := Function.update k.pTime p 0
      processCount := k.processCount + 1 })

def insertProcQReady (k : Kernel Q) (p : PcbPtr) : Option (Kernel Q) := do
  let q ← insertReady k.q p
  return { k with q := q }

/-- `if (tmp != NULL) insertProcQ(&readyQueue, tmp);` -/
def wake (k : Kernel Q) : Option PcbPtr → Option (Kernel Q)
  | none => some k
  | some tmp => insertProcQReady k tmp

/-! ## `scheduler.c` -/

/-- `LDST` of the state of `p`. -/
def loadProcess (k : Kernel Q) (p : PcbPtr) : Kernel Q :=
  { k with currentProcess := some p, cpu := .running (k.pS p) }

def setStatusForWaiting (k : Kernel Q) : Kernel Q := k.setTimer 0xFFFFFFFF

def updateTimeAndSwitch (hw : Hw) (k : Kernel Q) (p : PcbPtr) (time : Word) : Kernel Q :=
  loadProcess ({ k with startT := hw.startT }.setTimer time) p

def scheduler (hw : Hw) (k : Kernel Q) : Option (Kernel Q) := do
  let (p, q) ← removeReady k.q
  let k := { k with q := q }
  match p with
  | some p => return updateTimeAndSwitch hw k p timeSlice
  | none =>
      if k.processCount = 0 then return { k with cpu := .halted }
      else if k.softBlockedCount > 0 then
        return { setStatusForWaiting { k with currentProcess := none } with cpu := .waiting }
      else return k.panic

/-! ## `nucleousSystemCalls.c` -/

def createProcessCall (hw : Hw) (k : Kernel Q) (cur : PcbPtr) : Option (Kernel Q) := do
  let (tmp, k) ← allocPcb k
  match tmp with
  | none =>
      let k := k.setState cur ((k.pS cur).setV0 (-1))
      return loadProcess k cur
  | some tmp =>
      guard (accessible (k.pS cur).regA1)
      let k := k.setState tmp (copyState (hw.stateAt (k.pS cur).regA1) (k.pS tmp))
      let supportData := (k.pS cur).regA2
      let k := { k with
        pSupportStruct := if supportData ≠ 0 then
          Function.update k.pSupportStruct tmp supportData else k.pSupportStruct }
      let k ← insertProcQReady k tmp
      let tree ← insertChild k.tree cur tmp
      let k := { k with tree := tree }
      let k := k.setState cur ((k.pS cur).setV0 0)
      return loadProcess k cur

/-- What `terminate_Process_rec` does with a PCB that has no children left. -/
def releasePcb (k : Kernel Q) (current : PcbPtr) : Option (Kernel Q) := do
  let semAdd := pSemAdd k.q current
  if semAdd ≠ 0 then
    let k := k.setMem semAdd (k.mem semAdd + 1)
    let (_, q) ← QueueOps.outBlocked k.q current
    freePcb { k with q := q } current
  else
    let (_, q) ← outReady k.q current
    freePcb { k with q := q } current

mutual

/-- The first argument bounds the depth of the recursion. -/
def terminateProcessRec : Nat → Kernel Q → PcbPtr → Option (Kernel Q)
  | 0, _, _ => none
  | fuel + 1, k, current => do
      let k := { k with tree := outChild k.tree current }
      let k ← terminateChildren fuel k current
      releasePcb k current

/-- `while (!emptyChild(current)) terminate_Process_rec(removeChild(current));` -/
def terminateChildren : Nat → Kernel Q → PcbPtr → Option (Kernel Q)
  | 0, _, _ => none
  | fuel + 1, k, current =>
      if emptyChild k.tree current then some k
      else
        match removeChild k.tree current with
        | (none, tree) => terminateChildren fuel { k with tree := tree } current
        | (some child, tree) => do
            let k ← terminateProcessRec fuel { k with tree := tree } child
            terminateChildren fuel k current

end

def terminateProcess (fuel : Nat) (hw : Hw) (k : Kernel Q) (current : PcbPtr) :
    Option (Kernel Q) := do
  let k ← terminateProcessRec fuel k current
  scheduler hw k

def blockCurrentProcessAt (hw : Hw) (k : Kernel Q) (sem : Word) (cur : PcbPtr) :
    Option (Kernel Q) := do
  let k := k.addTime cur (hw.stopT - k.startT)
  let (_, q) ← QueueOps.insertBlocked k.q sem cur
  return { k with q := q, currentProcess := none }

def passeren (hw : Hw) (k : Kernel Q) (cur : PcbPtr) : Option (Kernel Q) := do
  let mutex := (k.pS cur).regA1
  guard (accessible mutex)
  let k := k.setMem mutex (k.mem mutex - 1)
  if k.mem mutex < 0 then
    let k ← blockCurrentProcessAt hw k mutex cur
    scheduler hw k
  else
    return loadProcess k cur

def verhogen (k : Kernel Q) (cur : PcbPtr) : Option (Kernel Q) := do
  let mutex := (k.pS cur).regA1
  guard (accessible mutex)
  let k := k.setMem mutex (k.mem mutex + 1)
  let (tmp, q) ← QueueOps.removeBlocked k.q mutex
  let k ← wake { k with q := q } tmp
  return loadProcess k cur

def waitForIo (hw : Hw) (k : Kernel Q) (cur : PcbPtr) : Option (Kernel Q) := do
  let s := k.pS cur
  match getSemIndex s.regA1 s.regA2 (s.regA3 ≠ 0) with
  | none => return k.panic
  | some deviceIndex =>
      let sem := k.layout.semAdd deviceIndex
      guard (deviceIndex.toNat < deviceNum)
      let k := k.setMem sem (k.mem sem - 1)
      let k := { k with softBlockedCount := k.softBlockedCount + 1 }
      let k ← blockCurrentProcessAt hw k sem cur
      scheduler hw k

def getCpuTime (hw : Hw) (k : Kernel Q) (cur : PcbPtr) : Kernel Q :=
  let k := k.addTime cur (hw.stopT - k.startT)
  let k := k.setState cur ((k.pS cur).setV0 (BitVec.ofInt 32 (k.pTime cur)))
  loadProcess { k with startT := hw.stopT } cur

def waitForClock (hw : Hw) (k : Kernel Q) (cur : PcbPtr) : Option (Kernel Q) := do
  let sem := k.layout.clockSemaphore
  let k := k.setMem sem (k.mem sem - 1)
  if k.mem sem < 0 then
    let k := { k with softBlockedCount := k.softBlockedCount + 1 }
    let k ← blockCurrentProcessAt hw k sem cur
    scheduler hw k
  else
    return loadProcess k cur

def getSupportData (k : Kernel Q) (cur : PcbPtr) : Kernel Q :=
  loadProcess (k.setState cur ((k.pS cur).setV0 (k.pSupportStruct cur))) cur

/-- The two first assignments of `handleNucleousSystemcalls`. -/
def saveState (k : Kernel Q) (cur : PcbPtr) : Kernel Q :=
  let k := k.setState cur (copyState k.biosDataPage (k.pS cur))
  k.setState cur { k.pS cur with pcEpc := (k.pS cur).pcEpc + 4 }

/-! ## `exceptions.c` -/

/-- `SYSCALL(TERMPROCESS)` issued by the nucleus: the BIOS saves the nucleus'
own state, and the call ends the current process. -/
def sysTermProcess (fuel : Nat) (hw : Hw) (k : Kernel Q) (cur : PcbPtr) : Option (Kernel Q) :=
  terminateProcess fuel hw (saveState { k with biosDataPage := hw.nested } cur) cur

def passupOrDie (fuel : Nat) (hw : Hw) (k : Kernel Q) (exceptionType : Fin 2) :
    Option (Kernel Q) := do
  let cur ← k.currentProcess
  let a := k.pSupportStruct cur
  if a ≠ 0 then
    let s := k.supp a
    let saved := copyState k.biosDataPage (s.supExceptState exceptionType)
    let s := { s with supExceptState := Function.update s.supExceptState exceptionType saved }
    return { k with
      supp := Function.update k.supp a s
      cpu := .context (s.supExceptContext exceptionType) }
  else
    sysTermProcess fuel hw k cur

def handleNucleousSystemcalls (fuel : Nat) (hw : Hw) (k : Kernel Q) : Option (Kernel Q) := do
  let currentSyscall := k.biosDataPage.regA0
  if k.biosDataPage.status &&& userPOn ≠ 0 then
    passupOrDie fuel hw k generalExcept
  else
    let cur ← k.currentProcess
    let k := saveState k cur
    if currentSyscall = createProcess then createProcessCall hw k cur
    else if currentSyscall = termProcess then terminateProcess fuel hw k cur
    else if currentSyscall = passerenCall then passeren hw k cur
    else if currentSyscall = verhogenCall then verhogen k cur
    else if currentSyscall = ioWait then waitForIo hw k cur
    else if currentSyscall = getTime then return getCpuTime hw k cur
    else if currentSyscall = clockWait then waitForClock hw k cur
    else if currentSyscall = getSupportPtr then return getSupportData k cur
    else passupOrDie fuel hw k generalExcept

/-! ## `interrupts.c` -/

def getDeviceNoFromLine (bitmap : Word) : Word :=
  match (List.range devPerLine).find? (fun i => (bitmap >>> i) &&& 1 = 1) with
  | some i => BitVec.ofNat 32 i
  | none => -1

def terminalIsRECV (dev : DevReg) : Bool := dev.recvStatus ≠ ready

def getTermStatus (dev : DevReg) : Word :=
  if terminalIsRECV dev then dev.recvStatus else dev.transmStatus

def acknowledgeTermInterrupt (dev : DevReg) : DevReg :=
  if terminalIsRECV dev then dev.setRecvCommand ack else dev.setTransmCommand ack

def acknowledgeDTPInterrupt (dev : DevReg) : DevReg := dev.setCommand ack

def setDevReg (k : Kernel Q) (line dev : Word) (d : DevReg) : Kernel Q :=
  { k with devReg := Function.update k.devReg line (Function.update (k.devReg line) dev d) }

def releaseSemAndUpdateStatus (k : Kernel Q) (deviceNo status : Word) : Option (Kernel Q) := do
  let k := { k with softBlockedCount := k.softBlockedCount - 1 }
  let sem := k.layout.semAdd deviceNo
  guard (deviceNo.toNat < deviceNum)
  if k.mem sem ≤ 0 then
    let (tmp, q) ← QueueOps.removeBlocked k.q sem
    let k := { k with q := q }
    match tmp with
    | none => return k
    | some tmp =>
        let k := k.setState tmp ((k.pS tmp).setV0 status)
        let k ← insertProcQReady k tmp
        return k.setMem sem (k.mem sem + 1)
  else
    return k

def handlePLTInterrupt (hw : Hw) (k : Kernel Q) : Option (Kernel Q) := do
  let k := k.setTimer (5000 * hw.timeScale)
  match k.currentProcess with
  | some cur =>
      let k := k.addTime cur (hw.stopT - k.startT)
      let k := k.setState cur (copyState k.biosDataPage (k.pS cur))
      let k ← insertProcQReady k cur
      scheduler hw k
  | none => return k.panic

/-- The drain loop of `handleIntervalTimerInterrupt`: each round takes one
PCB off the queue of the clock, or the loop never ends. -/
def clockLoop : Nat → Kernel Q → Option (Kernel Q)
  | 0, _ => none
  | fuel + 1, k => do
      let (tmp, q) ← QueueOps.removeBlocked k.q k.layout.clockSemaphore
      let k := { k with q := q }
      match tmp with
      | none => return k
      | some tmp =>
          let k ← insertProcQReady k tmp
          clockLoop fuel { k with softBlockedCount := k.softBlockedCount - 1 }

def handleIntervalTimerInterrupt (k : Kernel Q) : Option (Kernel Q) := do
  let k := { k with intervalTimer := 100000 }
  let k ← clockLoop (maxProc + 1) k
  return k.setMem k.layout.clockSemaphore 0

def handleDeviceInterrupt (hw : Hw) (k : Kernel Q) (interruptLine : Word) :
    Option (Kernel Q) := do
  let deviceNo := getDeviceNoFromLine (hw.bitmap interruptLine)
  let dev := k.devReg interruptLine deviceNo
  let isTerm : Bool := interruptLine = 7
  let recv : Bool := isTerm && terminalIsRECV dev
  let savedStatus := if isTerm then getTermStatus dev else dev.status
  let k := setDevReg k interruptLine deviceNo
    (if isTerm then acknowledgeTermInterrupt dev else acknowledgeDTPInterrupt dev)
  match getSemIndex interruptLine deviceNo recv with
  | none => return k.panic
  | some semIndex =>
      let k ← releaseSemAndUpdateStatus k semIndex savedStatus
      return { k with startT := hw.timerEnd }

/-- The end of `handleInterrupts`. -/
def resumeAfterInterrupt (hw : Hw) (k : Kernel Q) : Option (Kernel Q) :=
  match k.currentProcess with
  | some cur =>
      let k := k.addTime cur (hw.stopT - k.startT)
      let k := k.setState cur (copyState k.biosDataPage (k.pS cur))
      some (updateTimeAndSwitch hw k cur hw.timer)
  | none => scheduler hw k

/-- The pending line that is served, if any. -/
def pendingLine (cause : Word) : Option Nat :=
  if cause &&& causeIpMask ≠ 0 then
    [pltInt, interTimeInt, diskInt, flashInt, netwInt, prntInt, termInt].find?
      fun line => cause &&& causeIp line ≠ 0
  else none

def handleInterrupts (hw : Hw) (k : Kernel Q) : Option (Kernel Q) :=
  match pendingLine k.biosDataPage.cause with
  | none => resumeAfterInterrupt hw k
  | some line =>
      if line = pltInt then handlePLTInterrupt hw k
      else if line = interTimeInt then do
        let k ← handleIntervalTimerInterrupt k
        resumeAfterInterrupt hw k
      else do
        let k ← handleDeviceInterrupt hw k (BitVec.ofNat 32 line)
        resumeAfterInterrupt hw k

/-! ## Dispatch -/

/-- `handleExceptions()`; for an exception code the `switch` does not list,
it returns to nowhere. -/
def handleExceptions (fuel : Nat) (hw : Hw) (k : Kernel Q) : Option (Kernel Q) :=
  let excCode := causeGetExcCode k.biosDataPage.cause
  if excCode = excInt then handleInterrupts hw k
  else if excCode = excMod ∨ excCode = excTlbl ∨ excCode = excTlbs then
    passupOrDie fuel hw k pgFaultExcept
  else if excCode = excAdel ∨ excCode = excAdes ∨ excCode = excIbe ∨ excCode = excDbe then
    passupOrDie fuel hw k generalExcept
  else if excCode = excSys then handleNucleousSystemcalls fuel hw k
  else if excCode = excBp ∨ excCode = excRi ∨ excCode = excCpu ∨ excCode = excOv then
    passupOrDie fuel hw k generalExcept
  else none

end Pandos
