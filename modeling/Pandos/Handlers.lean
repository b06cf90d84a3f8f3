/-
# `Pandos.Handlers` — the handlers of the support level

What the handlers of `sysSupport.c` and `vmSupport.c` do with a process, by the
state that was saved in `sup_exceptState`, is a `Fate`.

    handlePageFault                PGFAULTEXCEPT: programTrapHandler or the pager
    handleSupportLevelExceptions   GENERALEXCEPT: programTrapHandler or a service
-/
import Pandos.Types

namespace Pandos

/-- The functions of `supportSystemCalls.c` that serve a call. -/
inductive Service where
  | terminateSupport
  | getTOD
  | writeToPrinter
  | writeToTerminal
  | readFromTerminal
deriving DecidableEq

def Service.number : Service → Word
  | .terminateSupport => terminate
  | .getTOD => getTod
  | .writeToPrinter => writePrinter
  | .writeToTerminal => writeTerminal
  | .readFromTerminal => readTerminal

/-- What a handler does with a process: a service, `SYSCALL(TERMINATE)`, the
pager, or nothing, after which it returns. -/
inductive Fate where
  | serves (s : Service)
  | sysTerminate
  | pages
  | returns
deriving DecidableEq

def programTrapHandler : Fate := .sysTerminate

/-- The `switch` has no `default`. -/
def handleSupportSystemcalls (excState : State) : Fate :=
  let currentSyscall := excState.regA0
  if currentSyscall = terminate then .serves .terminateSupport
  else if currentSyscall = getTod then .serves .getTOD
  else if currentSyscall = writePrinter then .serves .writeToPrinter
  else if currentSyscall = writeTerminal then .serves .writeToTerminal
  else if currentSyscall = readTerminal then .serves .readFromTerminal
  else .returns

def handleSupportLevelExceptions (supExceptState : Fin 2 → State) : Fate :=
  let cause := (supExceptState generalExcept).cause
  if cause = excMod then programTrapHandler
  else handleSupportSystemcalls (supExceptState generalExcept)

def handlePageFault (supExceptState : Fin 2 → State) : Fate :=
  let cause := (supExceptState pgFaultExcept).cause
  if cause = excMod then programTrapHandler else .pages

/-- The handler `init_uproc_support` enters for each type of exception. -/
def supportHandler (exceptionType : Fin 2) : (Fin 2 → State) → Fate :=
  if exceptionType = pgFaultExcept then handlePageFault else handleSupportLevelExceptions

/-! ## Arguments -/

/-- The check of `write_To_Printer` and `write_To_Terminal`; `strlen` is an `int`. -/
def badString (virtAddr strlen : Word) : Bool :=
  strlen.toInt ≤ 0 ∨ 128 < strlen.toInt ∨ virtAddr < uprocStartAddr ∨
    userStackTop ≤ virtAddr + strlen

/-- The arguments for which a service ends the process by `SYSCALL(TERMINATE)`. -/
def Service.refuses (excState : State) : Service → Bool
  | .writeToPrinter | .writeToTerminal => badString excState.regA1 excState.regA2
  | .readFromTerminal => excState.regA1 < uprocStartAddr
  | .terminateSupport | .getTOD => false

/-- Only a page fault goes to the pager. -/
theorem handleSupportLevelExceptions_ne_pages (supExceptState : Fin 2 → State) :
    handleSupportLevelExceptions supExceptState ≠ .pages := by
  unfold handleSupportLevelExceptions handleSupportSystemcalls programTrapHandler
  grind

end Pandos
