/-
# `Pandos.Services` — `supportSystemCalls.c`

The five services of the support level.  A service works on the memory of its
U-proc and on one device, and does a list of operations: semaphore calls,
device commands (with the `IOWAIT` after each), and accesses through
`virtAddr`.  What the device answers is a list of status words; if it is used
up before the loop ends, the service waits in its `IOWAIT`.

The two output services differ in their device only (`OutputDevice`).  All of
them end with a `LDST` of the saved state, but `get_TOD` does not move its
`pc_epc` past the `SYSCALL` (`resumes_iff`).
-/
import Pandos.ExceptState

namespace Pandos

/-! ## `supportSystemCalls.h` -/

abbrev Byte := BitVec 8

abbrev eos : Byte := 0
abbrev newline : Byte := 10
abbrev printChr : Word := 2
abbrev recvChr : Word := 2
abbrev recvd : Word := 5
abbrev termStatMask : Word := 0xFF
abbrev printStatMask : Word := 0xF
abbrev printDevReady : Word := 1

/-! ## Operations -/

/-- `&printerSemaphores[asid]` and the like. -/
inductive Mutex where
  | printer (asid : Word)
  | termWrite (asid : Word)
  | termRead (asid : Word)
deriving DecidableEq

/-- What is written to the registers of a device; the first is a printer, the
others are terminals. -/
inductive Command where
  | print (data0 command : Word)
  | transmit (transmCommand : Word)
  | receive (recvCommand : Word)
deriving DecidableEq

/-- The character a device is to put out: the lowest byte of `data0`, or the
second byte of `transm_command`. -/
def Command.char : Command → Option Byte
  | .print data0 _ => some (data0.setWidth 8)
  | .transmit transmCommand => some ((transmCommand >>> 8).setWidth 8)
  | .receive _ => none

/-- `io` is a command to the device `devNo`, and the `IOWAIT` for it. -/
inductive ServiceOp where
  | passeren (m : Mutex)
  | verhogen (m : Mutex)
  | io (devNo : Word) (c : Command)
  | read (a : Word)
  | write (a : Word)
deriving DecidableEq

/-- How far a loop has come with the status words it was given. -/
structure Progress where
  mem : Word → Byte
  retValue : Word
  ops : List ServiceOp
  ended : Bool

def Progress.after (ops : List ServiceOp) (r : Progress) : Progress :=
  { r with ops := ops ++ r.ops }

/-- What becomes of a call: its U-proc is ended, it waits for its device, or
it returns by a `LDST` of `loaded`. -/
inductive Result where
  | terminates
  | waits (r : Progress)
  | returns (r : Progress) (loaded : State)

def Result.ops : Result → List ServiceOp
  | .terminates => []
  | .waits r | .returns r _ => r.ops

/-- `PASSEREN` before a loop, and what comes after it. -/
def Progress.finish (r : Progress) (m : Mutex) (excState : State) : Result :=
  let r := r.after [.passeren m]
  if r.ended then
    .returns { r with ops := r.ops ++ [.verhogen m] }
      { excState.setV0 r.retValue with pcEpc := excState.pcEpc + 4 }
  else .waits r

/-! ## Output -/

/-- What `write_To_Printer` and `write_To_Terminal` do not share. -/
structure OutputDevice where
  mutex : Word → Mutex
  command : Byte → Command
  fails : Word → Bool

def printer : OutputDevice where
  mutex := .printer
  command c := .print (c.signExtend 32) printChr
  fails status :=
    status &&& printStatMask ≠ printDevReady ∧ status &&& printStatMask ≠ printDevReady

def terminal : OutputDevice where
  mutex := .termWrite
  command c := .transmit (printChr ||| (c.signExtend 32 <<< 8))
  fails status := status &&& termStatMask ≠ recvd

/-- One test of the loop, and, for another character, its command. -/
def OutputDevice.puts (dev : OutputDevice) (devNo virtAddr : Word) (c : Byte) : List ServiceOp :=
  if c = eos then [.read virtAddr]
  else [.read virtAddr, .read virtAddr, .io devNo (dev.command c)]

/-- The loop `while (*virtAddr != EOS)`; after an error it is ended by an
`EOS` in the place of the character. -/
def OutputDevice.loop (dev : OutputDevice) (devNo : Word) :
    List Word → (Word → Byte) → Word → Word → Progress
  | [], mem, virtAddr, retValue =>
      ⟨mem, retValue, dev.puts devNo virtAddr (mem virtAddr), mem virtAddr = eos⟩
  | status :: rest, mem, virtAddr, retValue =>
      let ops := dev.puts devNo virtAddr (mem virtAddr)
      if mem virtAddr = eos then ⟨mem, retValue, ops, true⟩
      else if dev.fails status then
        (dev.loop devNo rest (Function.update mem virtAddr eos) virtAddr (-status)).after
          (ops ++ [.write virtAddr])
      else (dev.loop devNo rest mem (virtAddr + 1) (retValue + 1)).after ops

def writeString (dev : OutputDevice) (supp : Support) (mem : Word → Byte) (statuses : List Word) :
    Result :=
  let excState := supp.supExceptState generalExcept
  if badString excState.regA1 excState.regA2 then .terminates
  else
    let asid := supp.supAsid
    (dev.loop (asid - 1) statuses mem excState.regA1 0).finish (dev.mutex asid) excState

def writeToPrinter : Support → (Word → Byte) → List Word → Result := writeString printer

def writeToTerminal : Support → (Word → Byte) → List Word → Result := writeString terminal

/-! ## Input -/

/-- The condition of the loop of `read_From_Terminal`. -/
def goesOn (rcvd : Byte) (status : Word) : Bool :=
  rcvd ≠ newline ∧ (status &&& termStatMask = ready ∨ status &&& termStatMask = 5)

/-- The loop of `read_From_Terminal`; `rcvd` and `status` are those of the
round before. -/
def readLoop (devNo : Word) :
    List Word → Byte → Word → (Word → Byte) → Word → Word → Progress
  | [], rcvd, status, mem, _, retValue =>
      if goesOn rcvd status then ⟨mem, retValue, [.io devNo (.receive recvChr)], false⟩
      else ⟨mem, retValue, [], true⟩
  | next :: rest, rcvd, status, mem, virtAddr, retValue =>
      if goesOn rcvd status then
        let mem := Function.update mem virtAddr ((next >>> 8).setWidth 8)
        let rcvd := mem virtAddr
        let ops := [.io devNo (.receive recvChr), .write virtAddr, .read virtAddr]
        if next &&& termStatMask ≠ recvd ∧ next &&& termStatMask ≠ ready then
          (readLoop devNo rest rcvd next (Function.update mem virtAddr eos) virtAddr (-next)).after
            (ops ++ [.write virtAddr])
        else (readLoop devNo rest rcvd next mem (virtAddr + 1) (retValue + 1)).after ops
      else ⟨mem, retValue, [], true⟩

def readFromTerminal (supp : Support) (mem : Word → Byte) (statuses : List Word) : Result :=
  let excState := supp.supExceptState generalExcept
  if excState.regA1 < uprocStartAddr then .terminates
  else
    let asid := supp.supAsid
    -- `rcvd` is '0' at first
    (readLoop (asid - 1) statuses 48 ready mem excState.regA1 0).finish (.termRead asid) excState

/-! ## The services -/

/-- `cpu_t` values of the time of day clock. -/
structure Tod where
  globalStartT : Word
  stopT : Word

def getTOD (tod : Tod) (supp : Support) (mem : Word → Byte) : Result :=
  let excState := supp.supExceptState generalExcept
  let v := tod.globalStartT - tod.stopT
  .returns ⟨mem, v, [], true⟩ (excState.setV0 v)

/-- `SYSCALL(TERMINATE)` leads to `terminate_support` too. -/
def serve (tod : Tod) (supp : Support) (mem : Word → Byte) (statuses : List Word) :
    Service → Result
  | .terminateSupport => .terminates
  | .getTOD => getTOD tod supp mem
  | .writeToPrinter => writeToPrinter supp mem statuses
  | .writeToTerminal => writeToTerminal supp mem statuses
  | .readFromTerminal => readFromTerminal supp mem statuses

section

variable {tod : Tod} {supp : Support} {mem : Word → Byte} {statuses : List Word} {s : Service}

theorem Progress.finish_ne_terminates (r : Progress) (m : Mutex) (excState : State) :
    r.finish m excState ≠ .terminates := by
  unfold finish
  dsimp only
  split
  · nofun
  · nofun

theorem Progress.finish_ended {r : Progress} (h : r.ended = true) (m : Mutex) (excState : State) :
    r.finish m excState = .returns ⟨r.mem, r.retValue, .passeren m :: r.ops ++ [.verhogen m], true⟩
      { excState.setV0 r.retValue with pcEpc := excState.pcEpc + 4 } := by
  obtain ⟨mem, retValue, ops, ended⟩ := r
  obtain rfl : ended = true := h
  rfl

/-! ## The return -/

/-- A call that returns continues after its `SYSCALL`, with its result in `v0`. -/
def Resumes (supp : Support) (res : Result) : Prop :=
  ∀ r loaded, res = .returns r loaded → loaded =
    { (supp.supExceptState generalExcept).setV0 r.retValue with
      pcEpc := (supp.supExceptState generalExcept).pcEpc + 4 }

theorem resumes_finish (r : Progress) (m : Mutex) :
    Resumes supp (r.finish m (supp.supExceptState generalExcept)) := by
  intro r' loaded h
  unfold Progress.finish at h
  dsimp only at h
  split at h
  · obtain ⟨rfl, rfl⟩ := Result.returns.inj h
    rfl
  · exact nomatch h

theorem resumes_terminates : Resumes supp .terminates := nofun

end

/-- The state `LDST` loads at the end of a call is the saved one, behind the
`SYSCALL`, if and only if the call is not `GET_TOD`.  What happens in between
leaves the saved state alone. -/
theorem resumes_iff (tod : Tod) (supp : Support) (mem : Word → Byte) (statuses : List Word)
    (s : Service) : (Resumes supp (serve tod supp mem statuses s) ↔ s ≠ .getTOD) ∧
      ∀ (fuel : Nat) (k k' : Kernel Queues) (e : Event), step fuel k e = some k' →
        (∀ saved hw, e = .exception saved hw → passedUp saved ≠ some generalExcept) → ∀ a,
          (k'.supp a).supExceptState generalExcept = (k.supp a).supExceptState generalExcept := by
  refine ⟨?_, fun fuel k k' e h he a => step_generalExcept h he a⟩
  cases s with
  | terminateSupport => exact iff_of_true resumes_terminates nofun
  | getTOD =>
      refine iff_of_false (fun h => ?_) (not_not.mpr rfl)
      have hpc : (supp.supExceptState generalExcept).pcEpc =
          (supp.supExceptState generalExcept).pcEpc + 4 := congrArg State.pcEpc (h _ _ rfl)
      simp at hpc
  | writeToPrinter | writeToTerminal =>
      refine iff_of_true ?_ nofun
      simp only [serve, writeToPrinter, writeToTerminal, writeString]
      split
      · exact resumes_terminates
      · exact resumes_finish _ _
  | readFromTerminal =>
      refine iff_of_true ?_ nofun
      simp only [serve, readFromTerminal]
      split
      · exact resumes_terminates
      · exact resumes_finish _ _

/-- The support structure of the first U-proc, after the call `a0` with `a1`
and `a2`. -/
def callingSupport (a0 a1 a2 : Word) : Support :=
  ⟨1, fun _ => callState a0 a1 a2 0, fun _ => ⟨0, 0, 0⟩, fun _ => ⟨0, 0⟩⟩

/-- `GET_TOD` at the address 0 returns to the address 0. -/
theorem not_resumes_getTOD : ∃ r loaded,
    serve ⟨0, 7⟩ (callingSupport getTod 0 0) (fun _ => 0) [] .getTOD = .returns r loaded ∧
      loaded.regV0 = -7 ∧ loaded.pcEpc = 0 ∧
      ((callingSupport getTod 0 0).supExceptState generalExcept).pcEpc = 0 ∧
      ¬ Resumes (callingSupport getTod 0 0)
        (serve ⟨0, 7⟩ (callingSupport getTod 0 0) (fun _ => 0) [] .getTOD) := by
  refine ⟨_, _, rfl, by decide, rfl, rfl, fun h => ?_⟩
  exact absurd (congrArg State.pcEpc (h _ _ rfl)) (by decide)

end Pandos
