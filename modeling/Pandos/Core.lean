/-
# `Pandos.Core` — what the nucleus does to processes

The abstract model of the nucleus: who is free, ready, running or blocked,
the values of the semaphores, the process tree and the two counters.  An
`Action` is what one event amounts to for these, and `Core.next` says how
each action changes them, in terms of a few moves:

    dispatch    the first ready process runs; with none ready, halt, wait or panic
    block s p   p goes to the end of the queue of s, and the next is dispatched
    wake p      p goes to the end of the ready queue
    kill p      p leaves its queue and is freed (a blocked one gives its unit back)

`Core.Inv` is the invariant of the moves, whatever the process tree may
contain: no PCB in two places, and the running process in no queue.
-/
import Pandos.Fifos
import Pandos.Machine

namespace Pandos

/-! ## Actions -/

/-- An event, as far as processes and semaphores are concerned.  The
semaphores of devices and of the clock are given by their addresses. -/
inductive Action where
  | createProcess
  | terminate
  | passeren (s : Word)
  | verhogen (s : Word)
  | ioWait (s : Word)
  | clockWait (s : Word)
  | resume
  | plt
  | tick (s : Word)
  | device (s : Word)
  | spurious
  | store (s : Word) (v : Int)
  | panic
  | reject
deriving DecidableEq

/-- `passupOrDie` ends the current process if it has no support structure. -/
def passupAction (k : Shared) : Action :=
  match k.currentProcess with
  | none => .reject
  | some cur => if k.pSupportStruct cur ≠ 0 then .resume else .terminate

def syscallAction (k : Shared) (s : State) : Action :=
  if s.status &&& userPOn ≠ 0 then passupAction k
  else if s.regA0 = createProcess then .createProcess
  else if s.regA0 = termProcess then .terminate
  else if s.regA0 = passerenCall then .passeren s.regA1
  else if s.regA0 = verhogenCall then .verhogen s.regA1
  else if s.regA0 = ioWait then
    match getSemIndex s.regA1 s.regA2 (s.regA3 ≠ 0) with
    | none => .panic
    | some i => .ioWait (k.layout.semAdd i)
  else if s.regA0 = getTime then .resume
  else if s.regA0 = clockWait then .clockWait k.layout.clockSemaphore
  else if s.regA0 = getSupportPtr then .resume
  else passupAction k

/-- The semaphore index a device interrupt on `line` is for. -/
def deviceIndex (hw : Hw) (line : Word) : Option Word :=
  let deviceNo := getDeviceNoFromLine (hw.bitmap line)
  getSemIndex line deviceNo
    (decide (line = 7) && terminalIsRECV (hw.devReg line deviceNo))

theorem pendingLine_mem {cause : Word} {line : Nat} (h : pendingLine cause = some line) :
    line ∈ [pltInt, interTimeInt, diskInt, flashInt, netwInt, prntInt, termInt] := by
  unfold pendingLine at h
  split at h
  · exact List.mem_of_find?_eq_some h
  · exact nomatch h

/-- The lines of devices have semaphores. -/
theorem deviceIndex_isSome {hw : Hw} {cause : Word} {line : Nat}
    (h : pendingLine cause = some line) (h1 : line ≠ pltInt) (h2 : line ≠ interTimeInt) :
    (deviceIndex hw (BitVec.ofNat 32 line)).isSome := by
  have hmem := pendingLine_mem h
  simp only [List.mem_cons, List.not_mem_nil, or_false] at hmem
  rcases hmem with rfl | rfl | rfl | rfl | rfl | rfl | rfl
  · exact absurd rfl h1
  · exact absurd rfl h2
  all_goals
    simp only [deviceIndex]
    generalize (_ && _) = recv
    cases recv <;> rfl

def interruptAction (k : Shared) (s : State) (hw : Hw) : Action :=
  match pendingLine s.cause with
  | none => .spurious
  | some line =>
      if line = pltInt then .plt
      else if line = interTimeInt then .tick k.layout.clockSemaphore
      else
        match deviceIndex hw (BitVec.ofNat 32 line) with
        | none => .reject
        | some i => .device (k.layout.semAdd i)

/-- The action of an event in a state. -/
def action (k : Shared) : Event → Action
  | .exception s hw =>
      let excCode := causeGetExcCode s.cause
      if excCode = excInt then interruptAction k s hw
      else if excCode = excSys then syscallAction k s
      else passupAction k
  | .refill _ badVAddr _ =>
      match k.currentProcess with
      | none => .reject
      | some cur =>
          match getMissingPage (k.supp (k.pSupportStruct cur)) badVAddr with
          | none => .terminate
          | some _ => .resume
  | .store a v => .store a v

/-- What `passupOrDie` amounts to. -/
inductive OfPassup : Action → Prop where
  | reject : OfPassup .reject
  | resume : OfPassup .resume
  | terminate : OfPassup .terminate

/-- What a system call amounts to. -/
inductive OfSyscall (k : Shared) (s : State) : Action → Prop where
  | passup {act} : OfPassup act → OfSyscall k s act
  | createProcess : s.regA0 = createProcess → OfSyscall k s .createProcess
  | passeren : OfSyscall k s (.passeren s.regA1)
  | verhogen : OfSyscall k s (.verhogen s.regA1)
  | ioWait (i) : OfSyscall k s (.ioWait (k.layout.semAdd i))
  | clockWait : OfSyscall k s (.clockWait k.layout.clockSemaphore)
  | panic : OfSyscall k s .panic

/-- What an interrupt amounts to. -/
inductive OfInterrupt (k : Shared) (s : State) (hw : Hw) : Action → Prop where
  | spurious : OfInterrupt k s hw .spurious
  | plt : OfInterrupt k s hw .plt
  | tick : OfInterrupt k s hw (.tick k.layout.clockSemaphore)
  | reject : OfInterrupt k s hw .reject
  | device {line i} : pendingLine s.cause = some line → line ≠ pltInt → line ≠ interTimeInt →
      deviceIndex hw (BitVec.ofNat 32 line) = some i →
        OfInterrupt k s hw (.device (k.layout.semAdd i))

theorem passupAction_of (k : Shared) : OfPassup (passupAction k) := by
  unfold passupAction
  split
  · exact .reject
  · split
    · exact .resume
    · exact .terminate

theorem syscallAction_of (k : Shared) (s : State) : OfSyscall k s (syscallAction k s) := by
  have hpass : OfSyscall k s (passupAction k) := .passup (passupAction_of k)
  unfold syscallAction
  split
  · exact hpass
  split
  next hn => exact .createProcess hn
  split
  · exact .passup .terminate
  split
  · exact .passeren
  split
  · exact .verhogen
  split
  · cases getSemIndex s.regA1 s.regA2 (s.regA3 ≠ 0) with
    | none => exact .panic
    | some i => exact .ioWait i
  split
  · exact .passup .resume
  split
  · exact .clockWait
  split
  · exact .passup .resume
  · exact hpass

theorem interruptAction_of (k : Shared) (s : State) (hw : Hw) :
    OfInterrupt k s hw (interruptAction k s hw) := by
  unfold interruptAction
  cases hl : pendingLine s.cause with
  | none => exact .spurious
  | some line =>
      dsimp only
      split
      · exact .plt
      next hplt =>
        split
        · exact .tick
        next htick =>
          cases hi : deviceIndex hw (BitVec.ofNat 32 line) with
          | none => exact .reject
          | some i => exact .device hl hplt htick hi

/-- What an action says about its event. -/
inductive Amounts (k : Shared) (e : Event) : Action → Prop where
  | createProcess : Amounts k e .createProcess
  | terminate : Amounts k e .terminate
  | passeren (s) : Amounts k e (.passeren s)
  | verhogen (s) : Amounts k e (.verhogen s)
  | ioWait (i) : Amounts k e (.ioWait (k.layout.semAdd i))
  | clockWait : Amounts k e (.clockWait k.layout.clockSemaphore)
  | resume : Amounts k e .resume
  | plt : Amounts k e .plt
  | tick : Amounts k e (.tick k.layout.clockSemaphore)
  | device (i) : Amounts k e (.device (k.layout.semAdd i))
  | spurious : Amounts k e .spurious
  | store {s v} : e = .store s v → Amounts k e (.store s v)
  | panic : Amounts k e .panic
  | reject : Amounts k e .reject

theorem action_amounts (k : Shared) (e : Event) : Amounts k e (action k e) := by
  cases e with
  | store a w => exact .store rfl
  | refill saved badVAddr hw =>
      simp only [action]
      split
      · exact .reject
      · split
        · exact .terminate
        · exact .resume
  | exception saved hw =>
      have hpass : ∀ {act}, OfPassup act → Amounts k (.exception saved hw) act := by
        intro act h
        cases h with
        | reject | resume | terminate => constructor
      have hint : ∀ {act}, OfInterrupt k saved hw act → Amounts k (.exception saved hw) act := by
        intro act h
        cases h with
        | spurious | plt | tick | reject | device _ _ _ _ => constructor
      have hsys : ∀ {act}, OfSyscall k saved act → Amounts k (.exception saved hw) act := by
        intro act h
        cases h with
        | passup h => exact hpass h
        | createProcess _ | passeren | verhogen | ioWait _ | clockWait | panic => constructor
      simp only [action]
      split
      · exact hint (interruptAction_of k saved hw)
      · split
        · exact hsys (syscallAction_of k saved)
        · exact hpass (passupAction_of k)

/-- Only stores are stores. -/
theorem action_store {k : Shared} {e : Event} {s : Word} {v : Int} (h : action k e = .store s v) :
    e = .store s v := by
  have ha := action_amounts k e
  rw [h] at ha
  cases ha with
  | store he => exact he

theorem action_clockWait {k : Shared} {e : Event} {s : Word} (h : action k e = .clockWait s) :
    s = k.layout.clockSemaphore := by
  have ha := action_amounts k e
  rw [h] at ha
  cases ha
  rfl

theorem action_tick {k : Shared} {e : Event} {s : Word} (h : action k e = .tick s) :
    s = k.layout.clockSemaphore := by
  have ha := action_amounts k e
  rw [h] at ha
  cases ha
  rfl

/-! ## States -/

/-- Whether a process runs, the processor waits, or it has stopped for good. -/
inductive Mode where
  | busy
  | waiting
  | halted
  | panicked
deriving DecidableEq

def Cpu.mode : Cpu → Mode
  | .running _ | .context _ => .busy
  | .waiting => .waiting
  | .halted => .halted
  | .panicked => .panicked

theorem Cpu.mode_eq_busy {c : Cpu} : c.mode = .busy ↔ c.busy = true := by
  cases c <;> simp [mode, busy]

theorem Cpu.mode_eq_waiting {c : Cpu} : c.mode = .waiting ↔ c = .waiting := by
  cases c <;> simp [mode]

theorem Cpu.mode_eq_halted {c : Cpu} : c.mode = .halted ↔ c = .halted := by
  cases c <;> simp [mode]

theorem Cpu.mode_eq_panicked {c : Cpu} : c.mode = .panicked ↔ c = .panicked := by
  cases c <;> simp [mode]

structure Core where
  layout : Layout
  q : Fifos
  tree : Tree
  mem : Word → Int
  processCount : Int
  softBlockedCount : Int
  current : Option PcbPtr
  mode : Mode

def Kernel.core (k : Kernel Fifos) : Core :=
  ⟨k.layout, k.q, k.tree, k.mem, k.processCount, k.softBlockedCount, k.currentProcess, k.cpu.mode⟩

namespace Core

/-! ## Moves -/

def addMem (c : Core) (s : Word) (d : Int) : Core :=
  { c with mem := store c.mem s (c.mem s + d) }

def addSoft (c : Core) (d : Int) : Core := { c with softBlockedCount := c.softBlockedCount + d }

def run (c : Core) (p : PcbPtr) : Core := { c with current := some p, mode := .busy }

def dispatch (c : Core) : Core :=
  match c.q.ready with
  | p :: l => run { c with q := { c.q with ready := l } } p
  | [] =>
      if c.processCount = 0 then { c with mode := .halted }
      else if c.softBlockedCount > 0 then { c with current := none, mode := .waiting }
      else { c with mode := .panicked }

def block (c : Core) (s : Word) (p : PcbPtr) : Core :=
  dispatch { c with q := c.q.insertBlocked s p, current := none }

def wake (c : Core) (p : PcbPtr) : Core := { c with q := c.q.insertReady p }

/-- The first process blocked on `s` leaves its queue. -/
def unblock (c : Core) (s : Word) : Core := { c with q := (c.q.removeBlocked s).2 }

def free (c : Core) (p : PcbPtr) : Core :=
  { c with q := c.q.freePcbRing p, processCount := c.processCount - 1 }

def kill (c : Core) (p : PcbPtr) : Core :=
  if c.q.pSemAdd p ≠ 0 then
    free { c.addMem (c.q.pSemAdd p) 1 with q := c.q.outBlocked p } p
  else
    free { c with q := (c.q.outReady p).2 } p

/-- All of `vs` die, and the tree has become `t`. -/
def killAll (c : Core) (vs : List PcbPtr) (t : Tree) : Core :=
  vs.foldl kill { c with tree := t }

def terminate (fuel : Nat) (c : Core) (p : PcbPtr) : Option Core := do
  let (vs, t) ← treeWalk fuel c.tree p
  return (c.killAll vs t).dispatch

/-- A new process behind the ready ones, as a child of `cur`. -/
def created (c : Core) (cur tmp : PcbPtr) (l : List PcbPtr) (t : Tree) : Core :=
  run { c with
    q := { c.q with free := l, ready := c.q.ready ++ [tmp] }
    tree := t
    processCount := c.processCount + 1 } cur

def create (c : Core) (cur : PcbPtr) : Option Core :=
  match c.q.free with
  | [] => some (c.run cur)
  | tmp :: l => do
      let t ← insertChild (c.tree.clear tmp) cur tmp
      return c.created cur tmp l t

/-- The processes blocked on `s` become ready one by one. -/
def drain (c : Core) (s : Word) : Core :=
  (c.q.blocked s).foldl (fun c p => ((c.unblock s).wake p).addSoft (-1)) c

/-- The end of an interrupt: back to the process, or a dispatch. -/
def back (c : Core) : Core :=
  match c.current with
  | some p => c.run p
  | none => c.dispatch

/-- The end of a time slice. -/
def preempt (c : Core) : Core :=
  match c.current with
  | some p => (c.wake p).dispatch
  | none => { c with mode := .panicked }

/-- What a device interrupt does to the queue of its semaphore. -/
def release (c : Core) (s : Word) : Core :=
  let c := c.addSoft (-1)
  if c.mem s ≤ 0 then
    match c.q.blocked s with
    | [] => c
    | p :: _ => ((c.unblock s).wake p).addMem s 1
  else c

/-- The effect of an action; `fuel` bounds the depth of the tree walk. -/
def effect (fuel : Nat) (c : Core) : Action → Option Core
  | .createProcess => do
      let cur ← c.current
      c.create cur
  | .terminate => do
      let cur ← c.current
      c.terminate fuel cur
  | .passeren s => do
      let cur ← c.current
      guard (accessible s)
      let c := c.addMem s (-1)
      if c.mem s < 0 then return c.block s cur else return c.run cur
  | .verhogen s => do
      let cur ← c.current
      guard (accessible s)
      let c := c.addMem s 1
      match c.q.blocked s with
      | [] => return c.run cur
      | p :: _ => return ((c.unblock s).wake p).run cur
  | .ioWait s => do
      let cur ← c.current
      guard (c.layout.IsDevice s)
      return ((c.addMem s (-1)).addSoft 1).block s cur
  | .clockWait s => do
      let cur ← c.current
      guard (c.layout.IsDevice s)
      let c := c.addMem s (-1)
      if c.mem s < 0 then return (c.addSoft 1).block s cur else return c.run cur
  | .resume => do
      let cur ← c.current
      return c.run cur
  | .plt => some c.preempt
  | .tick s => do
      guard (c.layout.IsDevice s)
      let c := c.drain s
      return { c with mem := store c.mem s 0 }.back
  | .device s => do
      guard (c.layout.IsDevice s)
      return (c.release s).back
  | .spurious => some c.back
  | .store s v => some { c with mem := store c.mem s v }
  | .panic => some { c with mode := .panicked }
  | .reject => none

/-- An action is taken while the processor is running or waiting. -/
def next (fuel : Nat) (c : Core) (act : Action) : Option Core :=
  if c.mode = .busy ∨ c.mode = .waiting then c.effect fuel act else none

/-- What each action can lead to, with what it finds on the way. -/
inductive Outcome (fuel : Nat) (c : Core) : Action → Core → Prop where
  | full {cur} : c.current = some cur → c.q.free = [] →
      Outcome fuel c .createProcess (c.run cur)
  | created {cur tmp l t} : c.current = some cur → c.q.free = tmp :: l →
      insertChild (c.tree.clear tmp) cur tmp = some t →
      Outcome fuel c .createProcess (c.created cur tmp l t)
  | terminated {cur vs t} : c.current = some cur → treeWalk fuel c.tree cur = some (vs, t) →
      Outcome fuel c .terminate (c.killAll vs t).dispatch
  | down {cur s} : c.current = some cur → accessible s → 0 ≤ c.mem s - 1 →
      Outcome fuel c (.passeren s) ((c.addMem s (-1)).run cur)
  | downBlocks {cur s} : c.current = some cur → accessible s → c.mem s - 1 < 0 →
      Outcome fuel c (.passeren s) ((c.addMem s (-1)).block s cur)
  | up {cur s} : c.current = some cur → accessible s → c.q.blocked s = [] →
      Outcome fuel c (.verhogen s) ((c.addMem s 1).run cur)
  | upWakes {cur s p l} : c.current = some cur → accessible s → c.q.blocked s = p :: l →
      Outcome fuel c (.verhogen s) ((((c.addMem s 1).unblock s).wake p).run cur)
  | ioWait {cur s} : c.current = some cur → c.layout.IsDevice s →
      Outcome fuel c (.ioWait s) (((c.addMem s (-1)).addSoft 1).block s cur)
  | clock {cur s} : c.current = some cur → c.layout.IsDevice s → 0 ≤ c.mem s - 1 →
      Outcome fuel c (.clockWait s) ((c.addMem s (-1)).run cur)
  | clockBlocks {cur s} : c.current = some cur → c.layout.IsDevice s → c.mem s - 1 < 0 →
      Outcome fuel c (.clockWait s) (((c.addMem s (-1)).addSoft 1).block s cur)
  | resume {cur} : c.current = some cur → Outcome fuel c .resume (c.run cur)
  | preempt {cur} : c.current = some cur → Outcome fuel c .plt (c.wake cur).dispatch
  | preemptNobody : c.current = none → Outcome fuel c .plt { c with mode := .panicked }
  | tick {s} : c.layout.IsDevice s → Outcome fuel c (.tick s)
      { c.drain s with mem := store (c.drain s).mem s 0 }.back
  | device {s} : c.layout.IsDevice s → Outcome fuel c (.device s) (c.release s).back
  | spurious : Outcome fuel c .spurious c.back
  | store {s v} : Outcome fuel c (.store s v) { c with mem := store c.mem s v }
  | panic : Outcome fuel c .panic { c with mode := .panicked }

open Simulation in
theorem next_outcome {fuel : Nat} {c c' : Core} {act : Action} (h : c.next fuel act = some c') :
    (c.mode = .busy ∨ c.mode = .waiting) ∧ Outcome fuel c act c' := by
  obtain ⟨hm, h⟩ := Option.ite_none_right_eq_some.mp h
  refine ⟨hm, ?_⟩
  have hval : ∀ s, (c.addMem s (-1)).mem s = c.mem s - 1 := fun s => by simp [addMem]; rfl
  cases act with
  | createProcess =>
      obtain ⟨cur, hcur, h⟩ := Option.bind_eq_some_iff.mp h
      cases hf : c.q.free with
      | nil =>
          simp only [create, hf] at h
          obtain rfl := Option.some.inj h
          exact .full hcur hf
      | cons tmp l =>
          simp only [create, hf] at h
          obtain ⟨t, ht, h⟩ := Option.bind_eq_some_iff.mp h
          obtain rfl := Option.some.inj h
          exact .created hcur hf ht
  | terminate =>
      obtain ⟨cur, hcur, h⟩ := Option.bind_eq_some_iff.mp h
      obtain ⟨⟨vs, t⟩, hw, h⟩ := Option.bind_eq_some_iff.mp h
      obtain rfl := Option.some.inj h
      exact .terminated hcur hw
  | passeren s =>
      obtain ⟨cur, hcur, h⟩ := Option.bind_eq_some_iff.mp h
      obtain ⟨hs, h⟩ := guard_bind_eq_some.mp h
      simp only [hval] at h
      split at h
      next hneg =>
        obtain rfl := Option.some.inj h
        exact .downBlocks hcur hs hneg
      next hneg =>
        obtain rfl := Option.some.inj h
        exact .down hcur hs (not_lt.mp hneg)
  | verhogen s =>
      obtain ⟨cur, hcur, h⟩ := Option.bind_eq_some_iff.mp h
      obtain ⟨hs, h⟩ := guard_bind_eq_some.mp h
      dsimp only at h
      split at h
      next hb =>
        obtain rfl := Option.some.inj h
        exact .up hcur hs hb
      next p l hb =>
        obtain rfl := Option.some.inj h
        exact .upWakes hcur hs hb
  | ioWait s =>
      obtain ⟨cur, hcur, h⟩ := Option.bind_eq_some_iff.mp h
      obtain ⟨hs, h⟩ := guard_bind_eq_some.mp h
      obtain rfl := Option.some.inj h
      exact .ioWait hcur hs
  | clockWait s =>
      obtain ⟨cur, hcur, h⟩ := Option.bind_eq_some_iff.mp h
      obtain ⟨hs, h⟩ := guard_bind_eq_some.mp h
      simp only [hval] at h
      split at h
      next hneg =>
        obtain rfl := Option.some.inj h
        exact .clockBlocks hcur hs hneg
      next hneg =>
        obtain rfl := Option.some.inj h
        exact .clock hcur hs (not_lt.mp hneg)
  | resume =>
      obtain ⟨cur, hcur, h⟩ := Option.bind_eq_some_iff.mp h
      obtain rfl := Option.some.inj h
      exact .resume hcur
  | plt =>
      obtain rfl := Option.some.inj h
      unfold preempt
      split
      next cur hcur => exact .preempt hcur
      next hcur => exact .preemptNobody hcur
  | tick s =>
      obtain ⟨hs, h⟩ := guard_bind_eq_some.mp h
      obtain rfl := Option.some.inj h
      exact .tick hs
  | device s =>
      obtain ⟨hs, h⟩ := guard_bind_eq_some.mp h
      obtain rfl := Option.some.inj h
      exact .device hs
  | spurious =>
      obtain rfl := Option.some.inj h
      exact .spurious
  | store s v =>
      obtain rfl := Option.some.inj h
      exact .store
  | panic =>
      obtain rfl := Option.some.inj h
      exact .panic
  | reject => exact nomatch h

/-! ## The invariant -/

structure Inv (c : Core) : Prop where
  wf : c.q.Wf
  busy : c.mode = .busy → ∃ p, c.current = some p ∧ c.q.Detached p
  waiting : c.mode = .waiting → c.current = none

end Core

open Simulation

namespace Fifos

variable {f : Fifos} {p x : PcbPtr} {s : Word}

theorem Wf.ne_of_blocked (h : f.Wf) (hx : f.Detached x) (hp : p ∈ f.blocked s) : x ≠ p := by
  rintro rfl
  exact h.not_blocked hx.2.2 s hp

/-- The head of a queue is in no queue once it has been removed. -/
theorem Wf.removeBlocked_detached (h : f.Wf) {l : List PcbPtr} (hs : f.blocked s = p :: l) :
    (f.removeBlocked s).2.Detached p := by
  have hp : p ∈ f.blocked s := by simp [hs]
  have hne := ((h.mem_blocked p s).mp hp)
  have h0 : f.pSemAdd p ≠ 0 := hne.1 ▸ hne.2
  rw [Fifos.removeBlocked, hs]
  exact ⟨fun e => h0 (h.pSemAdd_free p e), fun e => h0 (h.pSemAdd_ready p e), by simp⟩

theorem Wf.removeBlocked_keeps (h : f.Wf) (hx : f.Detached x) :
    (f.removeBlocked s).2.Detached x := by
  unfold Fifos.removeBlocked
  split
  · exact hx
  next p l hs =>
    have : x ≠ p := h.ne_of_blocked hx (s := s) (by simp [hs])
    exact ⟨hx.1, hx.2.1, by simp [this, hx.2.2]⟩

theorem Detached.insertReady (hx : f.Detached x) (hxp : x ≠ p) : (f.insertReady p).Detached x :=
  ⟨hx.1, by simp [Fifos.insertReady, hx.2.1, hxp], hx.2.2⟩

end Fifos

namespace Core

variable {c c' : Core} {p x : PcbPtr} {s : Word}

theorem run_inv (hwf : c.q.Wf) (hp : c.q.Detached p) : Inv (c.run p) :=
  ⟨hwf, fun _ => ⟨p, rfl, hp⟩, nofun⟩

/-- All that `scheduler` changes. -/
theorem dispatch_eq (c : Core) : ∃ current mode, c.dispatch =
    { c with
      q := { c.q with ready := c.q.ready.tail }
      current := current
      mode := mode } := by
  unfold dispatch
  split
  next p l hl =>
    rw [hl]
    exact ⟨some p, .busy, rfl⟩
  next hl =>
    have htail : c.q.ready.tail = c.q.ready := by
      rw [hl]
      rfl
    rw [htail]
    split
    · exact ⟨c.current, .halted, rfl⟩
    · split
      · exact ⟨none, .waiting, rfl⟩
      · exact ⟨c.current, .panicked, rfl⟩

theorem back_eq (c : Core) : ∃ ready current mode, c.back =
    { c with
      q := { c.q with ready := ready }
      current := current
      mode := mode } := by
  unfold back
  split
  next p _ => exact ⟨c.q.ready, some p, .busy, rfl⟩
  next =>
    obtain ⟨current, mode, h⟩ := dispatch_eq c
    exact ⟨c.q.ready.tail, current, mode, h⟩

theorem dispatch_ready (c : Core) : c.dispatch.q.ready = c.q.ready.tail := by
  obtain ⟨current, mode, h⟩ := dispatch_eq c
  rw [h]

theorem dispatch_pSemAdd (c : Core) : c.dispatch.q.pSemAdd = c.q.pSemAdd := by
  obtain ⟨current, mode, h⟩ := dispatch_eq c
  rw [h]

theorem dispatch_inv (hwf : c.q.Wf) : Inv c.dispatch := by
  unfold dispatch
  split
  next p l hr =>
    have hd := hwf.removeReady
    rw [Fifos.removeReady, hr] at hd
    refine run_inv hd ⟨fun hf => hwf.disjoint hf (by simp [hr]), ?_,
      hwf.pSemAdd_ready p (by simp [hr])⟩
    have hn := hwf.ready_nodup
    rw [hr] at hn
    exact (List.nodup_cons.mp hn).1
  next hr =>
    split
    · exact ⟨hwf, by rintro (⟨⟩ | ⟨⟩), by rintro ⟨⟩⟩
    · split
      · exact ⟨hwf, by rintro (⟨⟩ | ⟨⟩), fun _ => rfl⟩
      · exact ⟨hwf, by rintro (⟨⟩ | ⟨⟩), by rintro ⟨⟩⟩

theorem block_inv (hwf : c.q.Wf) (hp : c.q.Detached p) (hs : s ≠ 0) (hmax : s ≠ maxAdd) :
    Inv (c.block s p) :=
  dispatch_inv (hwf.insertBlocked hp hs hmax)

theorem kill_wf (hwf : c.q.Wf) (p : PcbPtr) : (c.kill p).q.Wf := by
  unfold kill
  split
  next hp =>
    refine (hwf.outBlocked hp).freePcbRing ?_ (by simp [Fifos.outBlocked])
    exact fun hr => hp (hwf.pSemAdd_ready p hr)
  next hp =>
    refine (hwf.outReady p).freePcbRing ?_ (not_not.mp hp)
    exact hwf.ready_nodup.not_mem_erase

theorem killAll_wf : ∀ (vs : List PcbPtr) {c : Core}, c.q.Wf → (vs.foldl kill c).q.Wf
  | [], _, h => h
  | p :: vs, _, h => killAll_wf vs (kill_wf h p)

theorem kill_set_tree (c : Core) (t : Tree) (p : PcbPtr) :
    kill { c with tree := t } p = { kill c p with tree := t } := by
  unfold kill
  dsimp only
  split <;> rfl

theorem foldl_kill_set_tree : ∀ (vs : List PcbPtr) (c : Core) (t : Tree),
    vs.foldl kill { c with tree := t } = { vs.foldl kill c with tree := t }
  | [], _, _ => rfl
  | p :: vs, c, t => by
      rw [List.foldl_cons, List.foldl_cons, kill_set_tree, foldl_kill_set_tree vs]

@[simp] theorem killAll_tree (c : Core) (vs : List PcbPtr) (t : Tree) :
    (c.killAll vs t).tree = t := by
  rw [killAll, foldl_kill_set_tree]

theorem killAll_append (c : Core) (vs ws : List PcbPtr) (t t' : Tree) :
    (c.killAll vs t).killAll ws t' = c.killAll (vs ++ ws) t' := by
  rw [killAll, killAll, killAll, List.foldl_append]
  simp only [foldl_kill_set_tree]

theorem killAll_concat (c : Core) (vs : List PcbPtr) (t : Tree) (p : PcbPtr) :
    (c.killAll vs t).kill p = c.killAll (vs ++ [p]) t := by
  rw [killAll, killAll, List.foldl_append]
  rfl

theorem wake_unblock_wf (hwf : c.q.Wf) {l : List PcbPtr} (hs : c.q.blocked s = p :: l) :
    ((c.unblock s).wake p).q.Wf :=
  (hwf.removeBlocked s).insertReady (hwf.removeBlocked_detached hs)

theorem wake_unblock_keeps (hwf : c.q.Wf) {l : List PcbPtr} (hs : c.q.blocked s = p :: l)
    (hx : c.q.Detached x) : ((c.unblock s).wake p).q.Detached x :=
  (hwf.removeBlocked_keeps hx).insertReady (hwf.ne_of_blocked hx (s := s) (by simp [hs]))

@[simp] theorem wake_unblock_blocked {l : List PcbPtr} (hs : c.q.blocked s = p :: l) :
    ((c.unblock s).wake p).q.blocked = Function.update c.q.blocked s l := by
  simp [unblock, wake, Fifos.insertReady, Fifos.removeBlocked, hs]

/-- Draining a queue, one process after the other. -/
theorem drain_induct {P : Core → Prop} {s : Word}
    (hstep : ∀ c p l, P c → c.q.Wf → c.q.blocked s = p :: l →
      P (((c.unblock s).wake p).addSoft (-1))) :
    ∀ (l : List PcbPtr) (c : Core), c.q.blocked s = l → c.q.Wf → P c →
      let c' := l.foldl (fun c p => ((c.unblock s).wake p).addSoft (-1)) c
      P c' ∧ c'.q.Wf ∧ c'.q.blocked s = []
  | [], _, hs, hwf, h => ⟨h, hwf, hs⟩
  | p :: l, c, hs, hwf, h => by
      refine drain_induct hstep l (((c.unblock s).wake p).addSoft (-1)) ?_
        (wake_unblock_wf hwf hs) (hstep c p l h hwf hs)
      simp [addSoft, wake_unblock_blocked hs]

theorem drain_wf (hwf : c.q.Wf) (s : Word) : (c.drain s).q.Wf :=
  (drain_induct (P := fun _ => True) (fun _ _ _ _ _ _ => trivial) _ c rfl hwf trivial).2.1

theorem drain_blocked (hwf : c.q.Wf) (s : Word) : (c.drain s).q.blocked s = [] :=
  (drain_induct (P := fun _ => True) (fun _ _ _ _ _ _ => trivial) _ c rfl hwf trivial).2.2

theorem drain_keeps (hwf : c.q.Wf) (s : Word) (hx : c.q.Detached x) :
    (c.drain s).q.Detached x :=
  (drain_induct (P := fun c => c.q.Detached x)
    (fun _ _ _ h hwf hs => wake_unblock_keeps hwf hs h) _ c rfl hwf hx).1

theorem drain_current (hwf : c.q.Wf) (s : Word) :
    (c.drain s).current = c.current ∧ (c.drain s).mode = c.mode :=
  (drain_induct (P := fun c' => c'.current = c.current ∧ c'.mode = c.mode)
    (fun _ _ _ h _ _ => h) _ c rfl hwf ⟨rfl, rfl⟩).1

/-- A unit is left, so nobody is woken. -/
theorem release_of_pos (h : 0 < c.mem s) : c.release s = c.addSoft (-1) :=
  if_neg (not_le.mpr h)

theorem release_of_nobody (hb : c.q.blocked s = []) : c.release s = c.addSoft (-1) := by
  have hb' : (c.addSoft (-1)).q.blocked s = [] := hb
  simp only [release, hb']
  split <;> rfl

theorem release_of_blocked {l : List PcbPtr} (hv : c.mem s ≤ 0) (hb : c.q.blocked s = p :: l) :
    c.release s = (((c.addSoft (-1)).unblock s).wake p).addMem s 1 := by
  have hv' : (c.addSoft (-1)).mem s ≤ 0 := hv
  have hb' : (c.addSoft (-1)).q.blocked s = p :: l := hb
  simp only [release, if_pos hv', hb']

/-- An interrupt counts one off, and may wake the first of the queue. -/
theorem release_cases (c : Core) (s : Word) : c.release s = c.addSoft (-1) ∨
    ∃ p l, c.q.blocked s = p :: l ∧
      c.release s = (((c.addSoft (-1)).unblock s).wake p).addMem s 1 := by
  by_cases hv : c.mem s ≤ 0
  · cases hb : c.q.blocked s with
    | nil => exact .inl (release_of_nobody hb)
    | cons p l => exact .inr ⟨p, l, rfl, release_of_blocked hv hb⟩
  · exact .inl (release_of_pos (not_le.mp hv))

theorem release_wf (hwf : c.q.Wf) (s : Word) : (c.release s).q.Wf := by
  rcases release_cases c s with h | ⟨p, l, hb, h⟩
  · rw [h]
    exact hwf
  · rw [h]
    exact wake_unblock_wf (c := c.addSoft (-1)) hwf hb

theorem release_keeps (hwf : c.q.Wf) (s : Word) (hx : c.q.Detached x) :
    (c.release s).q.Detached x := by
  rcases release_cases c s with h | ⟨p, l, hb, h⟩
  · rw [h]
    exact hx
  · rw [h]
    exact wake_unblock_keeps (c := c.addSoft (-1)) hwf hb hx

@[simp] theorem release_current (c : Core) (s : Word) : (c.release s).current = c.current := by
  rcases release_cases c s with h | ⟨p, l, -, h⟩
  · rw [h]
    rfl
  · rw [h]
    rfl

theorem back_inv (hwf : c.q.Wf) (hc : ∀ p, c.current = some p → c.q.Detached p) :
    Inv c.back := by
  unfold back
  split
  next p hp => exact run_inv hwf (hc p hp)
  · exact dispatch_inv hwf

theorem accessible_ne {s : Word} (h : accessible s) : s ≠ 0 ∧ s ≠ maxAdd := by
  simp only [accessible, decide_eq_true_eq] at h
  refine ⟨h.1, ?_⟩
  rintro rfl
  exact absurd h.2 (by decide)

theorem Inv.detached (h : Inv c) (hm : c.mode = .busy ∨ c.mode = .waiting) {p : PcbPtr}
    (hp : c.current = some p) : c.q.Detached p := by
  rcases hm with hm | hm
  · obtain ⟨p', hp', hd⟩ := h.busy hm
    obtain rfl : p = p' := Option.some.inj (hp.symm.trans hp')
    exact hd
  · exact absurd (hp.symm.trans (h.waiting hm)) nofun

theorem created_inv (hwf : c.q.Wf) (hp : c.q.Detached p) {tmp : PcbPtr} {l : List PcbPtr}
    (hf : c.q.free = tmp :: l) (t : Tree) : Inv (c.created p tmp l t) := by
  have hn := hwf.free_nodup
  rw [hf] at hn
  have hd : Fifos.Detached { c.q with free := l } tmp :=
    ⟨(List.nodup_cons.mp hn).1, hwf.disjoint (by simp [hf]), hwf.pSemAdd_free tmp (by simp [hf])⟩
  have hal := hwf.allocPcbRing
  rw [Fifos.allocPcbRing, hf] at hal
  have hpt : p ≠ tmp := by
    rintro rfl
    exact hp.1 (by simp [hf])
  have hp' : Fifos.Detached { c.q with free := l } p :=
    ⟨fun e => hp.1 (by rw [hf]; exact List.mem_cons_of_mem _ e), hp.2⟩
  exact run_inv (hal.insertReady hd) (hp'.insertReady hpt)

/-- Every action keeps the invariant, whatever the tree walk visits. -/
theorem next_inv {fuel : Nat} {act : Action} (hinv : Inv c)
    (h : c.next fuel act = some c') : Inv c' := by
  obtain ⟨hm, h⟩ := next_outcome h
  have hwf := hinv.wf
  cases h with
  | full hcur _ => exact run_inv hwf (hinv.detached hm hcur)
  | created hcur hf _ => exact created_inv hwf (hinv.detached hm hcur) hf _
  | terminated _ _ => exact dispatch_inv (killAll_wf _ hwf)
  | down hcur _ _ => exact run_inv hwf (hinv.detached hm hcur)
  | downBlocks hcur hs _ =>
      have hs := accessible_ne hs
      exact block_inv hwf (hinv.detached hm hcur) hs.1 hs.2
  | up hcur _ _ => exact run_inv hwf (hinv.detached hm hcur)
  | upWakes hcur _ hb =>
      exact run_inv (wake_unblock_wf hwf hb) (wake_unblock_keeps hwf hb (hinv.detached hm hcur))
  | ioWait hcur hs =>
      have hs := accessible_ne hs.accessible
      exact block_inv hwf (hinv.detached hm hcur) hs.1 hs.2
  | clock hcur _ _ => exact run_inv hwf (hinv.detached hm hcur)
  | clockBlocks hcur hs _ =>
      have hs := accessible_ne hs.accessible
      exact block_inv hwf (hinv.detached hm hcur) hs.1 hs.2
  | resume hcur => exact run_inv hwf (hinv.detached hm hcur)
  | preempt hcur => exact dispatch_inv (hwf.insertReady (hinv.detached hm hcur))
  | preemptNobody _ => exact ⟨hwf, nofun, nofun⟩
  | @tick s _ =>
      refine back_inv (drain_wf hwf s) fun p hp => ?_
      exact drain_keeps hwf s (hinv.detached hm ((drain_current hwf s).1.symm.trans hp))
  | @device s _ =>
      refine back_inv (release_wf hwf s) fun p hp => ?_
      exact release_keeps hwf s (hinv.detached hm (by simpa using hp))
  | spurious => exact back_inv hwf fun p hp => hinv.detached hm hp
  | store => exact ⟨hwf, hinv.busy, hinv.waiting⟩
  | panic => exact ⟨hwf, nofun, nofun⟩

/-! ### The layout -/

@[simp] theorem dispatch_layout (c : Core) : c.dispatch.layout = c.layout := by
  obtain ⟨current, mode, h⟩ := dispatch_eq c
  rw [h]

@[simp] theorem back_layout (c : Core) : c.back.layout = c.layout := by
  obtain ⟨ready, current, mode, h⟩ := back_eq c
  rw [h]

@[simp] theorem foldl_kill_layout (vs : List PcbPtr) (c : Core) :
    (vs.foldl kill c).layout = c.layout := by
  induction vs generalizing c with
  | nil => rfl
  | cons p vs ih =>
      rw [List.foldl_cons, ih]
      unfold kill
      split <;> rfl

@[simp] theorem drain_layout (c : Core) (s : Word) : (c.drain s).layout = c.layout := by
  unfold drain
  generalize c.q.blocked s = l
  induction l generalizing c with
  | nil => rfl
  | cons p l ih => exact ih _

@[simp] theorem release_layout (c : Core) (s : Word) : (c.release s).layout = c.layout := by
  rcases release_cases c s with h | ⟨p, l, -, h⟩
  · rw [h]
    rfl
  · rw [h]
    rfl

/-- `deviceSemaphores` stays where it is. -/
theorem next_layout {fuel : Nat} {act : Action} (h : c.next fuel act = some c') :
    c'.layout = c.layout := by
  obtain ⟨-, h⟩ := next_outcome h
  cases h with
  | terminated _ _ => simp [killAll]
  | downBlocks _ _ _ | ioWait _ _ | clockBlocks _ _ _ | preempt _ => exact dispatch_layout _
  | tick _ | device _ => simp
  | spurious => exact back_layout c
  | _ => rfl

end Core

end Pandos
