/-
# `Pandos.Completions` — interrupts that answer commands

A sub-device is a disk, a flash device, a network adapter, a printer or one
half of a terminal.  A process writes a command to its register and issues
one `IOWAIT` for it; the completion interrupt wakes whoever is blocked on the
semaphore of the sub-device.  With interrupts enabled it may come before the
`IOWAIT` does, and `releaseSemAndUpdateStatus` leaves no trace of it then.

`Io` keeps the books for one sub-device: `owing` are the processes that still
have to wait for a command they have written, and `pending` is the number of
commands no interrupt has answered.  The main result is `blocked_le_pending`:
no more processes are blocked on the sub-device than commands are pending.
The run may start in any reachable state with nobody blocked on the semaphore
and a value of one at most, from `main` as well as after `initDevSemaphores`,
and each of its steps meets

    Orderly       who issues the IOWAIT owes it, and PASSEREN, VERHOGEN and
                  stores leave no unit in the semaphore to those who are
                  blocked on it
    InTime        an interrupt finds somebody blocked, or leaves a command for
                  each process that owes an IOWAIT

`Orderly` is how drivers use a device.  `InTime` is what the nucleus does not
see to: the `IOWAIT` behind an interrupt that has come too early blocks for
good (`blocked_earlyScript`).  The books are those of the run, and nothing is
said of commands that were written before it.

The induction carries `IoInv`: the blocked and the owing together are no more
than the pending, and the value with the blocked comes to one at most, so that
an interrupt finds whoever is blocked (`IoInv.step`).
-/
import Mathlib.Data.Finset.Option
import Pandos.Lib.Trace
import Pandos.SoftBlocked

namespace Pandos

open Semaphore Trace

/-! ## Sub-devices -/

/-- The entries of `deviceSemaphores` less the clock. -/
abbrev SubDevice := Fin 48

/-- `DEV_REG_ADDR(line, dev)` -/
def devRegAddr (line dev : Word) : Word := 0x10000054 + (line - 3) * 0x80 + dev * 0x10

namespace SubDevice

variable (i : SubDevice)

def line : Word := if i.val < 40 then BitVec.ofNat 32 (3 + i.val / 8) else 7

def dev : Word := BitVec.ofNat 32 (i.val % 8)

/-- Of the terminals, the receivers come first. -/
def recv : Bool := decide (i.val < 40)

/-- The `command` of the device, or the `transm_command` of a terminal. -/
def commandRegister : Word := devRegAddr i.line i.dev + if i.recv then 0x4 else 0xC

theorem getSemIndex_eq : ∀ i : SubDevice,
    getSemIndex i.line i.dev i.recv = some (BitVec.ofNat 32 i) := by
  decide

end SubDevice

/-- `&deviceSemaphores[i]` -/
def Layout.subSem (l : Layout) (i : SubDevice) : Word := l.semAdd (BitVec.ofNat 32 i)

theorem Layout.isDevice_subSem (l : Layout) (i : SubDevice) : l.IsDevice (l.subSem i) :=
  ⟨⟨i, by have := i.isLt; simp only [deviceNum]; omega⟩, rfl⟩

theorem Layout.subSem_ne_clock (l : Layout) (i : SubDevice) : l.subSem i ≠ l.clockSemaphore := by
  intro h
  have hi := i.isLt
  have hlt : i.val < deviceNum := by
    simp only [deviceNum]
    omega
  have := l.semAdd_inj (j := 48) hlt (by decide) h
  omega

/-- The event writes a command to `i`. -/
def Event.commands (e : Event) (i : SubDevice) : Prop :=
  match e with
  | .store a _ => a = i.commandRegister
  | _ => False

instance (e : Event) (i : SubDevice) : Decidable (e.commands i) :=
  match e with
  | .store a _ => inferInstanceAs (Decidable (a = i.commandRegister))
  | .exception _ _ | .refill _ _ _ => .isFalse id

/-! ## Books -/

/-- The processes that have written a command and not waited for it yet, and
the number of commands that have not been answered. -/
structure Io where
  owing : Finset PcbPtr
  pending : Nat

namespace Io

def start : Io := ⟨∅, 0⟩

/-- The dead do not wait any more. -/
def after (i : SubDevice) (g : Io) (x : Trans Queues) : Io :=
  if x.event.commands i then ⟨g.owing ∪ x.before.currentProcess.toFinset, g.pending + 1⟩
  else if x.action = .ioWait (x.before.layout.subSem i) then
    ⟨g.owing \ x.before.currentProcess.toFinset, g.pending⟩
  else if x.action = .device (x.before.layout.subSem i) then ⟨g.owing, g.pending - 1⟩
  else if x.action = .terminate then ⟨g.owing.filter fun p => x.after.Live p, g.pending⟩
  else g

/-- Who waits has written a command, and `PASSEREN`, `VERHOGEN` and stores leave
no unit in the semaphore to those who are blocked on it. -/
structure Orderly (i : SubDevice) (g : Io) (x : Trans Queues) : Prop where
  call : x.action.Minds (· = x.before.layout.subSem i) x.before.blockedOn
  wait : x.action = .ioWait (x.before.layout.subSem i) →
    ∀ p, x.before.currentProcess = some p → p ∈ g.owing

/-- The interrupt finds somebody blocked, or leaves a command for each of those
who still have to wait. -/
def InTime (i : SubDevice) (g : Io) (x : Trans Queues) : Prop :=
  x.action = .device (x.before.layout.subSem i) →
    x.before.blockedOn (x.before.layout.subSem i) ≠ [] ∨ g.owing.card ≤ g.pending - 1

instance (i : SubDevice) (g : Io) (x : Trans Queues) : Decidable (g.InTime i x) :=
  inferInstanceAs (Decidable (_ → _ ∨ _))

instance (i : SubDevice) (g : Io) (x : Trans Queues) : Decidable (g.Orderly i x) :=
  decidable_of_iff (x.action.Minds (· = x.before.layout.subSem i) x.before.blockedOn ∧
      (x.action = .ioWait (x.before.layout.subSem i) →
        ∀ p, x.before.currentProcess = some p → p ∈ g.owing))
    ⟨fun h => ⟨h.1, h.2⟩, fun h => ⟨h.1, h.2⟩⟩

end Io

/-- The books of `i` after a run. -/
def io (i : SubDevice) (tr : List (Trans Queues)) : Io := tr.foldl (Io.after i) .start

@[simp] theorem io_concat (i : SubDevice) (tr : List (Trans Queues)) (x : Trans Queues) :
    io i (tr ++ [x]) = (io i tr).after i x := by simp [io]

/-! ## One event -/

namespace Io

variable {i : SubDevice} {g : Io} {x : Trans Queues}

theorem commands_action (h : x.event.commands i) :
    (∀ s, x.action ≠ .ioWait s) ∧ (∀ s, x.action ≠ .device s) ∧ x.action ≠ .terminate := by
  obtain ⟨k, e, k'⟩ := x
  cases e with
  | store a v => exact ⟨nofun, nofun, nofun⟩
  | exception _ _ => exact h.elim
  | refill _ _ _ => exact h.elim

theorem after_wait (hx : x.action = .ioWait (x.before.layout.subSem i)) {p : PcbPtr}
    (hp : x.before.currentProcess = some p) : g.after i x = ⟨g.owing.erase p, g.pending⟩ := by
  have hcmd : ¬ x.event.commands i := fun h => (commands_action h).1 _ hx
  rw [after, if_neg hcmd, if_pos hx, hp, Option.toFinset_some, Finset.sdiff_singleton_eq_erase]

theorem after_device (hx : x.action = .device (x.before.layout.subSem i)) :
    g.after i x = ⟨g.owing, g.pending - 1⟩ := by
  have hcmd : ¬ x.event.commands i := fun h => (commands_action h).2.1 _ hx
  have hwait : x.action ≠ .ioWait (x.before.layout.subSem i) := by
    rw [hx]
    exact nofun
  rw [after, if_neg hcmd, if_neg hwait, if_pos hx]

/-- Nothing else adds to those who have to wait but a command. -/
theorem after_other (hw : x.action ≠ .ioWait (x.before.layout.subSem i))
    (hd : x.action ≠ .device (x.before.layout.subSem i)) :
    (g.after i x).owing.card + g.pending ≤ g.owing.card + (g.after i x).pending := by
  rw [after]
  split
  next h =>
    have hle := Finset.card_union_le g.owing x.before.currentProcess.toFinset
    have hone : x.before.currentProcess.toFinset.card ≤ 1 := by
      cases x.before.currentProcess <;> simp
    dsimp only
    omega
  · split
    · exact Nat.add_le_add_right (Finset.card_filter_le _ _) _
    · exact le_rfl

end Io

/-- What is true of a sub-device all along. -/
structure IoInv (i : SubDevice) (g : Io) (c : Core) : Prop where
  within : (c.sem (c.layout.subSem i)).Within 1
  covered : (c.q.blocked (c.layout.subSem i)).length + g.owing.card ≤ g.pending

theorem IoInv.step {i : SubDevice} {g : Io} {k k' : Kernel Queues} {c d : Core} {e : Event}
    {fuel : Nat} (h : IoInv i g c) (hc : Rep k c)
    (hnext : c.next fuel (action k.toShared e) = some d) (horder : g.Orderly i ⟨k, e, k'⟩)
    (htime : g.InTime i ⟨k, e, k'⟩) : IoInv i (g.after i ⟨k, e, k'⟩) d := by
  have hlayout := Core.next_layout hnext
  have hsub : k.layout.subSem i = c.layout.subSem i := by rw [hc.layout]
  have hact : ∀ {a}, action k.toShared e = a → (⟨k, e, k'⟩ : Trans Queues).action = a := fun h => h
  have hminds : (action k.toShared e).Minds (· = c.layout.subSem i) c.q.blocked := by
    rw [← hsub, ← funext hc.blockedOn]
    exact horder.call
  have hother : action k.toShared e ≠ .ioWait (c.layout.subSem i) →
      action k.toShared e ≠ .device (c.layout.subSem i) →
      (g.after i ⟨k, e, k'⟩).owing.card + g.pending ≤
        g.owing.card + (g.after i ⟨k, e, k'⟩).pending := fun hw hd =>
    Io.after_other (hsub ▸ hw) (hsub ▸ hd)
  have hcov := h.covered
  constructor
  case within =>
    rw [hlayout]
    exact Core.next_sem_within hc.inv hnext (c.layout.isDevice_subSem i) hminds h.within
  rw [hlayout]
  rcases Core.leaves_or_store hminds with hcall | ⟨v, hstore, -⟩
  case inr =>
    rw [hstore] at hnext hother
    obtain ⟨-, hout⟩ := Core.next_outcome hnext
    have := hother nofun nofun
    cases hout with
    | store =>
        dsimp only
        omega
  have hclock : action k.toShared e ≠ .clockWait (c.layout.subSem i) := fun e =>
    k.layout.subSem_ne_clock i (hsub.trans (action_clockWait e))
  have htick : action k.toShared e ≠ .tick (c.layout.subSem i) := fun e =>
    k.layout.subSem_ne_clock i (hsub.trans (action_tick e))
  obtain ⟨o, ho, hsem⟩ := Core.next_io hc.inv hnext (c.layout.isDevice_subSem i) hcall hclock htick
    h.within
  have hqueue : d.q.blocked (c.layout.subSem i) = ((c.sem (c.layout.subSem i)).io o).queue :=
    congrArg Sem.queue hsem
  rw [hqueue]
  generalize action k.toShared e = act at ho hother hact
  cases ho with
  | @wait cur hcur =>
      have hx := hact rfl
      rw [← hsub] at hx
      have hkcur : k.currentProcess = some cur := hc.current.symm.trans hcur
      have hmem := horder.wait hx cur hkcur
      have hcard := Finset.card_erase_add_one hmem
      rw [Io.after_wait hx hkcur, Sem.io, List.length_append, List.length_singleton]
      dsimp only [Core.sem]
      omega
  | done =>
      have hx := hact rfl
      rw [← hsub] at hx
      rw [Io.after_device hx]
      -- somebody is blocked, or a command is left for each of those who have to wait
      cases hb : c.q.blocked (c.layout.subSem i) with
      | cons p l =>
          rw [hb, List.length_cons] at hcov
          simp only [Core.sem, hb, Sem.io]
          omega
      | nil =>
          have hlt := (htime hx).resolve_left fun hne => hne (by
            rw [hc.blockedOn, ← hb]
            exact congrArg c.q.blocked hsub)
          simp only [Core.sem, hb, Sem.io, List.length_nil]
          omega
  | @terminate dead =>
      have := hother (by rintro ⟨⟩) (by rintro ⟨⟩)
      have hle := List.length_filter_le (fun x => !dead x) (c.q.blocked (c.layout.subSem i))
      simp only [Sem.io, Sem.step, Core.sem]
      omega
  | skip hw hd =>
      have := hother hw hd
      simp only [Sem.io, Core.sem]
      omega

/-! ## Runs -/

theorem Run.ioInv {i : SubDevice} {k₀ k : Kernel Queues} {tr : List (Trans Queues)}
    (h₀ : Reachable k₀) (hvalue : k₀.mem (k₀.layout.subSem i) ≤ 1)
    (hnobody : k₀.blockedOn (k₀.layout.subSem i) = []) (h : Run k₀ tr k)
    (ho : Along (Io.after i) (Io.Orderly i) .start tr)
    (ht : Along (Io.after i) (Io.InTime i) .start tr) :
    ∃ c, Rep k c ∧ IoInv i (io i tr) c := by
  induction h with
  | nil =>
      obtain ⟨c, hc⟩ := h₀.rep
      have hb : c.q.blocked (c.layout.subSem i) = [] := by
        rw [hc.layout, ← hc.blockedOn]
        exact hnobody
      have hmem : c.mem (c.layout.subSem i) ≤ 1 := by
        rw [hc.layout, hc.mem]
        exact hvalue
      refine ⟨c, hc, ?_, by rw [hb]; exact le_rfl⟩
      simpa [Sem.Within, Core.sem, hb] using hmem
  | snoc _ hstep ih =>
      obtain ⟨ho, hlast⟩ := along_concat.mp ho
      obtain ⟨ht, htime⟩ := along_concat.mp ht
      obtain ⟨c, hc, hinv⟩ := ih ho ht
      obtain ⟨fuel, d, hnext, hd⟩ := hc.step hstep
      rw [io_concat]
      exact ⟨d, hd, hinv.step hc hnext hlast htime⟩

/-- If each interrupt of a sub-device comes in time, no more processes are
blocked on it than commands to it are outstanding.  The run starts where nobody
is blocked and the semaphore holds a unit at most. -/
theorem blocked_le_pending {i : SubDevice} {k₀ k : Kernel Queues} {tr : List (Trans Queues)}
    (h₀ : Reachable k₀) (hvalue : k₀.mem (k₀.layout.subSem i) ≤ 1)
    (hnobody : k₀.blockedOn (k₀.layout.subSem i) = []) (h : Run k₀ tr k)
    (ho : Along (Io.after i) (Io.Orderly i) .start tr)
    (ht : Along (Io.after i) (Io.InTime i) .start tr) :
    (k.blockedOn (k.layout.subSem i)).length ≤ (io i tr).pending := by
  obtain ⟨c, hc, hinv⟩ := Run.ioInv h₀ hvalue hnobody h ho ht
  have := hinv.covered
  rw [hc.blockedOn, ← hc.layout]
  omega

/-- `SYSCALL(IOWAIT, TERMINT, 0, 0)`, and the command that goes before it. -/
def callPrint : List Event := [.store (SubDevice.commandRegister 40) 0x4102, callWait 7 0]

/-- The first terminal has sent a character. -/
def characterSent : Event :=
  .exception { zeroState with cause := causeIp termInt }
    { Hw.zero with bitmap := fun _ => 1, devReg := fun _ _ => ⟨ready, 0, 5, 0⟩ }

/-- Two characters, of which the first has been sent. -/
def inTimeScript : List Event := callPrint ++ [characterSent] ++ callPrint

/-- `initDevSemaphores` has gone before. -/
theorem blocked_le_pending_script : ∃ k₀ tr k, Reachable k₀ ∧
    k₀.mem (k₀.layout.subSem 40) = 1 ∧ Run k₀ tr k ∧ tr.map Trans.event = inTimeScript ∧
      k.blockedOn (k.layout.subSem 40) = [0] ∧ 1 ≤ (io 40 tr).pending := by
  have hany : (Script.eval walkFuel .zero .zero
      (initDevSemaphores Memory.zero.layout)).any (fun x =>
        (runScript walkFuel x.final inTimeScript).any fun y =>
          x.final.mem (x.final.layout.subSem 40) = 1 ∧
            x.final.blockedOn (x.final.layout.subSem 40) = [] ∧
            Along (Io.after 40) (Io.Orderly 40) .start y.1 ∧
            Along (Io.after 40) (Io.InTime 40) .start y.1 ∧
            y.2.blockedOn (y.2.layout.subSem 40) = [0]) = true := by
    decide +kernel
  obtain ⟨x, hx, hany⟩ := Script.exists_of_any hany
  obtain ⟨hboot, hstores, -⟩ := Script.run hx
  obtain ⟨⟨tr, k⟩, hy, h⟩ := (Option.any_eq_true _ _).mp hany
  obtain ⟨hunit, hnobody, horder, htime, hblocked⟩ := of_decide_eq_true h
  have hreach : Reachable x.final := ⟨x.start, x.trace, hboot, hstores⟩
  have hrun := runScript_run .nil hy
  have hle := blocked_le_pending hreach hunit.le hnobody hrun horder htime
  rw [hblocked] at hle
  exact ⟨x.final, tr, k, hreach, hunit, hrun, runScript_events hy, hblocked, hle⟩

/-- The character has been sent before the process waits for it. -/
def earlyScript : List Event :=
  [.store (SubDevice.commandRegister 40) 0x4102, characterSent, callWait 7 0]

/-- It waits for an interrupt that has been handled. -/
theorem blocked_earlyScript : ∃ k₀ tr k, Boot k₀ ∧ Run k₀ tr k ∧
    Along (Io.after 40) (Io.Orderly 40) .start tr ∧ k.blockedOn (k.layout.subSem 40) = [0] ∧
      (io 40 tr).pending = 0 := by
  have hany : (Script.eval walkFuel .zero .zero earlyScript).any (fun x =>
      Along (Io.after 40) (Io.Orderly 40) .start x.trace ∧
        x.final.blockedOn (x.final.layout.subSem 40) = [0] ∧ (io 40 x.trace).pending = 0) =
      true := by
    decide +kernel
  obtain ⟨x, hx, h⟩ := Script.exists_of_any hany
  obtain ⟨horder, hblocked, hpending⟩ := of_decide_eq_true h
  obtain ⟨hboot, hrun, -⟩ := Script.run hx
  exact ⟨x.start, x.trace, x.final, hboot, hrun, horder, hblocked, hpending⟩

end Pandos
