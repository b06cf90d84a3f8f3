/-
# `Pandos.Script` — runs from a list of events

A script is a list of events that are handled one after the other, from boot
on.  It either leads to a run (`Script.run`), or some event is not handled.
The events below are those of a hardware that answers zeros, apart from what
is written out.
-/
import Pandos.Observe

namespace Pandos

/-! ## Running scripts -/

def runScript (fuel : Nat) (k : Kernel Queues) :
    List Event → Option (List (Trans Queues) × Kernel Queues)
  | [] => some ([], k)
  | e :: es => do
      let k' ← step fuel k e
      let (tr, k'') ← runScript fuel k' es
      return (⟨k, e, k'⟩ :: tr, k'')

theorem runScript_run {fuel : Nat} {k₀ : Kernel Queues} {es : List Event} :
    ∀ {k k' : Kernel Queues} {tr₀ tr : List (Trans Queues)}, Run k₀ tr₀ k →
      runScript fuel k es = some (tr, k') → Run k₀ (tr₀ ++ tr) k' := by
  induction es with
  | nil =>
      intro k k' tr₀ tr hr h
      obtain ⟨rfl, rfl⟩ := Prod.mk.inj (Option.some.inj h)
      simpa using hr
  | cons e es ih =>
      intro k k' tr₀ tr hr h
      obtain ⟨k₁, hk₁, h⟩ := Option.bind_eq_some_iff.mp h
      obtain ⟨⟨tr₁, k₂⟩, hk₂, h⟩ := Option.bind_eq_some_iff.mp h
      obtain ⟨rfl, rfl⟩ := Prod.mk.inj (Option.some.inj h)
      have := ih (hr.snoc ⟨fuel, hk₁⟩) hk₂
      rwa [List.append_assoc, List.singleton_append] at this

theorem runScript_events {fuel : Nat} {es : List Event} : ∀ {k k' : Kernel Queues}
    {tr : List (Trans Queues)}, runScript fuel k es = some (tr, k') →
      tr.map Trans.event = es := by
  induction es with
  | nil =>
      intro k k' tr h
      obtain ⟨rfl, rfl⟩ := Prod.mk.inj (Option.some.inj h)
      rfl
  | cons e es ih =>
      intro k k' tr h
      obtain ⟨k₁, -, h⟩ := Option.bind_eq_some_iff.mp h
      obtain ⟨⟨tr₁, k₂⟩, hk₂, h⟩ := Option.bind_eq_some_iff.mp h
      obtain ⟨rfl, rfl⟩ := Prod.mk.inj (Option.some.inj h)
      rw [List.map_cons, ih hk₂]

/-- The run of a script that starts at boot. -/
structure Script where
  start : Kernel Queues
  trace : List (Trans Queues)
  final : Kernel Queues

/-- `fuel` bounds the depth of terminations. -/
def Script.eval (fuel : Nat) (m : Memory) (hw : Hw) (es : List Event) : Option Script :=
  (main m hw).bind fun k₀ => (runScript fuel k₀ es).map fun x => ⟨k₀, x.1, x.2⟩

theorem Script.run_main {fuel : Nat} {m : Memory} {hw : Hw} {es : List Event} {x : Script}
    (h : Script.eval fuel m hw es = some x) :
    main m hw = some x.start ∧ Run x.start x.trace x.final ∧ x.trace.map Trans.event = es := by
  rw [Script.eval, Option.bind_eq_some_iff] at h
  obtain ⟨k₀, hk₀, h⟩ := h
  obtain ⟨⟨tr, k⟩, hk, rfl⟩ := Option.map_eq_some_iff.mp h
  exact ⟨hk₀, runScript_run .nil hk, runScript_events hk⟩

theorem Script.run {fuel : Nat} {m : Memory} {hw : Hw} {es : List Event} {x : Script}
    (h : Script.eval fuel m hw es = some x) :
    Boot x.start ∧ Run x.start x.trace x.final ∧ x.trace.map Trans.event = es := by
  obtain ⟨hmain, hrun⟩ := Script.run_main h
  exact ⟨⟨m, hw, hmain⟩, hrun⟩

/-- What can be read off the final state of a script. -/
theorem Script.exists_of_any {o : Option Script} {p : Script → Bool} (h : o.any p = true) :
    ∃ x, o = some x ∧ p x = true := by
  cases o with
  | none => exact nomatch h
  | some x => exact ⟨x, rfl, h⟩

/-! ## Events -/

def Hw.zero : Hw where
  stopT := 0
  startT := 0
  timer := 0
  timerEnd := 0
  timeScale := 0
  bitmap := fun _ => 0
  devReg := fun _ _ => ⟨0, 0, 0, 0⟩
  stateAt := fun _ => zeroState
  nested := zeroState

/-- The state of a process that has issued `SYSCALL(a0, a1, a2, a3)` in kernel mode. -/
def callState (a0 a1 a2 a3 : Word) : State :=
  { zeroState with
    cause := 8 <<< 2
    gpr := fun i => if i = 3 then a0 else if i = 4 then a1 else if i = 5 then a2
      else if i = 6 then a3 else 0 }

def syscall (a0 a1 a2 a3 : Word) : Event := .exception (callState a0 a1 a2 a3) .zero

/-- `SYSCALL(CREATEPROCESS, a1, 0, 0)`; the new state lies at an aligned address. -/
def callCreate : Event := syscall createProcess 0x20100000 0 0

def callTerm : Event := syscall termProcess 0 0 0

def callP (s : Word) : Event := syscall passerenCall s 0 0

def callV (s : Word) : Event := syscall verhogenCall s 0 0

/-- The end of a time slice. -/
def pltTick : Event := .exception { zeroState with cause := causeIp pltInt } .zero

/-- An interrupt of the device `dev` on `line`, with status `ready`. -/
def deviceDone (line dev : Nat) : Event :=
  .exception { zeroState with cause := causeIp line }
    { Hw.zero with bitmap := fun _ => 1 <<< dev, devReg := fun _ _ => ⟨ready, 0, ready, 0⟩ }

/-- A memory of zeros with `deviceSemaphores` inside the RAM of the kernel. -/
def Memory.zero : Memory where
  layout := ⟨0x20001000, by decide, by decide, by decide⟩
  mem := fun _ => 0
  supp := fun _ => ⟨0, fun _ => zeroState, fun _ => ⟨0, 0, 0⟩, fun _ => ⟨0, 0⟩⟩
  tlb := fun _ => ⟨0, 0⟩
  devReg := fun _ _ => ⟨0, 0, 0, 0⟩
  testPhase3 := 0
  ramTop := 0

end Pandos
