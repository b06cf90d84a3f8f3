/-
# `Pandos.Devices` — completions, and which half of a terminal they are for

A completion interrupt wakes the first process that is blocked on the
semaphore of the sub-device and gives it the status; nothing else moves
(`Rep.completed`).

The two halves of a terminal share one interrupt line.  `terminalIsRECV`
decides between them by the receiver alone: whatever it shows other than
`READY` counts as a completion of the receiver.  So an interrupt is handled
for a half that has completed exactly if the receiver is `READY` or has
completed itself (`demultiplexed_iff`); with a receiver that is still busy
the transmitter's interrupt goes to the receiver (`not_demultiplexed_busy`).
-/
import Pandos.Completions
import Pandos.Context

namespace Pandos

open Semaphore Simulation Kernel

/-! ## The processes that run or are ready -/

/-- The running process, if any, and the ready ones behind it. -/
def Kernel.lineup (k : Kernel Queues) : List PcbPtr := k.running.toList ++ k.readyList

namespace Core

variable {c : Core} {p : PcbPtr} {s : Word}

def lineup (c : Core) : List PcbPtr := c.running.toList ++ c.q.ready

theorem Inv.lineup_eq (h : c.Inv) (hm : c.mode = .busy ∨ c.mode = .waiting) :
    c.lineup = c.current.toList ++ c.q.ready := by
  rw [lineup, h.running_eq hm]

theorem dispatch_lineup (c : Core) : c.dispatch.lineup = c.q.ready := by
  rw [lineup, dispatch_running, dispatch_ready]
  cases c.q.ready with
  | nil | cons _ _ => rfl

theorem back_lineup (c : Core) : c.back.lineup = c.current.toList ++ c.q.ready := by
  unfold back
  split
  next p hp =>
    rw [hp]
    rfl
  next hnone =>
    rw [hnone]
    exact dispatch_lineup c

@[simp] theorem back_free (c : Core) : c.back.q.free = c.q.free := by
  obtain ⟨ready, current, mode, h⟩ := back_eq c
  rw [h]

theorem wake_unblock_ready {l : List PcbPtr} (hb : c.q.blocked s = p :: l) :
    ((c.unblock s).wake p).q.ready = c.q.ready ++ [p] := by
  simp [wake, unblock, Fifos.insertReady, Fifos.removeBlocked, hb]

theorem wake_unblock_free {l : List PcbPtr} (hb : c.q.blocked s = p :: l) :
    ((c.unblock s).wake p).q.free = c.q.free := by
  simp [wake, unblock, Fifos.insertReady, Fifos.removeBlocked, hb]

end Core

theorem Rep.lineup {k : Kernel Queues} {c : Core} (h : Rep k c) : k.lineup = c.lineup := by
  rw [Kernel.lineup, Core.lineup, h.running, h.readyList]

/-! ## Completions -/

/-- A completion on the semaphore `s`: the first process that waits gets the
status and stands behind the ready ones; if nobody waits, nothing changes. -/
structure Completed (s status : Word) (k k' : Kernel Queues) : Prop where
  others : ∀ s', s' ≠ s → k'.blockedOn s' = k.blockedOn s' ∧ k'.mem s' = k.mem s'
  wakes : k.mem s ≤ 0 → ∀ p l, k.blockedOn s = p :: l → k'.blockedOn s = l ∧
    k'.mem s = k.mem s + 1 ∧ k'.lineup = k.lineup ++ [p] ∧ k'.pS p = (k.pS p).setV0 status
  nobody : 0 < k.mem s ∨ k.blockedOn s = [] →
    k'.blockedOn s = k.blockedOn s ∧ k'.mem s = k.mem s ∧ k'.lineup = k.lineup
  free : k'.q.freeList = k.q.freeList

/-- The exception is an interrupt on `line`, of the device with the semaphore `i`. -/
structure Interrupts (line : Nat) (i : Word) (saved : State) (hw : Hw) : Prop where
  code : causeGetExcCode saved.cause = excInt
  pending : pendingLine saved.cause = some line
  index : deviceIndex hw (BitVec.ofNat 32 line) = some i
  isDevice : line ≠ pltInt ∧ line ≠ interTimeInt

theorem Interrupts.action {line : Nat} {i : Word} {saved : State} {hw : Hw}
    (h : Interrupts line i saved hw) (k : Shared) :
    action k (.exception saved hw) = .device (k.layout.semAdd i) := by
  simp only [Pandos.action, if_pos h.code, interruptAction, h.pending, if_neg h.isDevice.1,
    if_neg h.isDevice.2, h.index]

namespace Rep

variable {k k' : Kernel Queues} {c : Core} {saved : State} {hw : Hw} {i status : Word}

/-- What the event of a completion comes to in the core. -/
theorem completed_core {d : Core} {s : Word} (h : Rep k c) (hd : Rep k' d)
    (hm : c.mode = .busy ∨ c.mode = .waiting) (hcore : d = (c.release s).back)
    (hpS : k.mem s ≤ 0 → ∀ p l, k.blockedOn s = p :: l → k'.pS p = (k.pS p).setV0 status) :
    Completed s status k k' := by
  have hmem : ∀ s', k.mem s' = (c.sem s').value := fun s' => (congrFun h.mem s').symm
  have hmem' : ∀ s', k'.mem s' = (d.sem s').value := fun s' => (congrFun hd.mem s').symm
  have hq : ∀ s', k.blockedOn s' = (c.sem s').queue := h.blockedOn
  have hq' : ∀ s', k'.blockedOn s' = (d.sem s').queue := hd.blockedOn
  have hsem : ∀ s', d.sem s' = (c.release s).sem s' := fun s' => hcore ▸ Core.back_sem _ s'
  have hline : k'.lineup = c.current.toList ++ (c.release s).q.ready := by
    rw [hd.lineup, hcore, Core.back_lineup, Core.release_current]
  have hline₀ : k.lineup = c.current.toList ++ c.q.ready := h.lineup.trans (h.inv.lineup_eq hm)
  have hfree : k'.q.freeList = (c.release s).q.free := by
    rw [hd.queues.freeList_eq, hcore, Core.back_free]
  constructor
  case others =>
    intro s' hs'
    rw [hq', hq, hmem', hmem, hsem, Core.release_sem hs']
    exact ⟨rfl, rfl⟩
  case wakes =>
    intro hle p l hb
    have hle' : (c.sem s).value ≤ 0 := hmem s ▸ hle
    have hb' : c.q.blocked s = p :: l := (hq s).symm.trans hb
    have hup := Core.release_sem_self hle' (by rw [hb']; exact nofun)
    refine ⟨?_, ?_, ?_, hpS hle p l hb⟩
    · rw [hq', hsem, hup]
      exact congrArg List.tail hb'
    · rw [hmem', hsem, hup, hmem]
      rfl
    · rw [hline, hline₀, Core.release_of_blocked hle' hb', List.append_assoc]
      exact congrArg _ (Core.wake_unblock_ready (c := c.addSoft (-1)) hb')
  case nobody =>
    intro hno
    have hrel : c.release s = c.addSoft (-1) := by
      rcases hno with hpos | hb
      · have hpos' : 0 < (c.sem s).value := hmem s ▸ hpos
        exact Core.release_of_pos hpos'
      · exact Core.release_of_nobody ((hq s).symm.trans hb)
    rw [hq', hmem', hsem, hrel, hq, hmem, hline, hline₀, hrel]
    exact ⟨rfl, rfl, rfl⟩
  case free =>
    rw [hfree, h.queues.freeList_eq]
    rcases Core.release_cases c s with hrel | ⟨p, l, hb, hrel⟩
    · rw [hrel]
      rfl
    · rw [hrel]
      exact Core.wake_unblock_free (c := c.addSoft (-1)) hb

/-- A completion, with the register of the device acknowledged. -/
theorem step_completed {line : Nat} (h : Rep k c) (hi : Interrupts line i saved hw)
    (hs : Step k (.exception saved hw) k') :
    Completed (k.layout.semAdd i) (hw.answer (BitVec.ofNat 32 line)) k k' ∧
      k'.devReg (BitVec.ofNat 32 line) (getDeviceNoFromLine (hw.bitmap (BitVec.ofNat 32 line))) =
        hw.acknowledged (BitVec.ofNat 32 line) := by
  let x : Trans Queues := ⟨k, .exception saved hw, k'⟩
  have hact : x.action = .device (k.layout.semAdd i) := hi.action k.toShared
  obtain ⟨fuel, d, hnext, hd⟩ := h.step hs
  rw [hi.action] at hnext
  obtain ⟨hm, hout⟩ := Core.next_outcome hnext
  obtain ⟨fuel, hs⟩ := hs
  obtain ⟨-, hs⟩ := Option.ite_none_right_eq_some.mp hs
  simp only [handleExceptions, if_pos hi.code] at hs
  have hpS := (h.interrupt_contexts hi.code hs).1
  obtain ⟨e, he, hlead⟩ := handleInterrupts_handled rfl hs
  have hcore : d = (c.release (k.layout.semAdd i)).back := by
    cases hout
    rfl
  refine ⟨h.completed_core hd hm hcore fun hle p l hb => ?_, ?_⟩
  · have hcur : k.currentProcess ≠ some p := by
      intro hcur
      have hdet := h.inv.detached hm (h.current.trans hcur)
      refine h.inv.wf.not_blocked hdet.2.2 (k.layout.semAdd i) ?_
      rw [← h.blockedOn, hb]
      simp
    have hwoken : x.woken = some p := by
      simp only [Trans.woken, hact]
      exact (if_pos hle).trans (by rw [hb]; rfl)
    have hstatus : x.status = hw.answer (BitVec.ofNat 32 line) := by
      show hw.answer (BitVec.ofNat 32 ((pendingLine saved.cause).getD 0)) = _
      rw [hi.pending]
      rfl
    rw [hpS]
    show (if k.currentProcess = some p then _ else if x.woken = some p then _ else _) = _
    rw [if_neg hcur, if_pos hwoken, hstatus]
  · have hdev : k'.devReg = e.devReg := by
      rw [hlead.devReg]
      unfold Kernel.suspended
      split <;> rfl
    rw [hdev]
    cases he with
    | quiet hne _ =>
        have hint : interruptAction k.toShared saved hw = .device (k.layout.semAdd i) :=
          (if_pos hi.code).symm.trans hact
        exact absurd hint (hne _)
    | @device line' i' e hl _ _ _ hrel =>
        obtain rfl : line' = line := Option.some.inj (hl.symm.trans hi.pending)
        have hreg : e.devReg = (setDevReg (k.entered saved hw) (BitVec.ofNat 32 line')
            (getDeviceNoFromLine (hw.bitmap (BitVec.ofNat 32 line')))
            (hw.acknowledged (BitVec.ofNat 32 line'))).devReg := by
          rcases releaseSemAndUpdateStatus_untouched hrel with ⟨-, hu⟩ | ⟨-, tmp, q, -, hu⟩
          · exact hu.devReg
          · refine hu.devReg.trans ?_
            cases tmp <;> rfl
        show e.devReg _ _ = _
        rw [hreg]
        simp [setDevReg]

/-- An interrupt of a device is handled whenever it comes. -/
theorem exists_step {line : Nat} (h : Rep k c) (hi : Interrupts line i saved hw)
    (hlt : i.toNat < deviceNum) (hcpu : takesException k.cpu saved.cause = true) :
    ∃ k', Step k (.exception saved hw) k' := by
  let a : Kernel Fifos := ⟨k.toShared, c.q⟩
  let b : Kernel Fifos := setDevReg (a.entered saved hw) (BitVec.ofNat 32 line)
    (getDeviceNoFromLine (hw.bitmap (BitVec.ofNat 32 line))) (hw.acknowledged (BitVec.ofNat 32 line))
  obtain ⟨b₁, hb₁, -⟩ := releaseSemAndUpdateStatus_core (a := b)
    h.inv.wf (hw.answer (BitVec.ofNat 32 line)) hlt
  obtain ⟨a', ha', -⟩ := resumeAfterInterrupt_core hw { b₁ with startT := hw.timerEnd }
  have hdev : handleDeviceInterrupt hw (a.entered saved hw) (BitVec.ofNat 32 line) =
      some { b₁ with startT := hw.timerEnd } := by
    rw [handleDeviceInterrupt_eq rfl hi.index]
    exact Option.bind_eq_some_iff.mpr ⟨b₁, hb₁, rfl⟩
  have hstep : Pandos.step 0 a (.exception saved hw) = some a' := by
    refine (if_pos hcpu).trans ?_
    simp only [handleExceptions, if_pos hi.code, handleInterrupts, hi.pending,
      if_neg hi.isDevice.1, if_neg hi.isDevice.2]
    exact Option.bind_eq_some_iff.mpr ⟨_, hdev, ha'⟩
  exact h.returns hstep

end Rep

/-! ## Terminals -/

/-- A completion is pending: the device is installed and neither ready nor busy. -/
def Finished (status : Word) : Prop :=
  status &&& 0xFF ≠ 0 ∧ status &&& 0xFF ≠ ready ∧ status &&& 0xFF ≠ 3

instance (status : Word) : Decidable (Finished status) := inferInstanceAs (Decidable (_ ∧ _ ∧ _))

namespace SubDevice

variable (i : SubDevice)

def status (d : DevReg) : Word := if i.recv then d.recvStatus else d.transmStatus

def acknowledge (d : DevReg) : DevReg :=
  if i.recv then d.setRecvCommand ack else d.setTransmCommand ack

/-- One half of terminal `n`. -/
def half (recv : Bool) (n : Fin devPerLine) : SubDevice :=
  if recv then (n.natAdd 32).castLE (by decide) else n.natAdd 40

theorem half_spec : ∀ (recv : Bool) (n : Fin devPerLine),
    (half recv n).line = 7 ∧ (half recv n).dev = BitVec.ofNat 32 n ∧ (half recv n).recv = recv := by
  decide

/-- `wait_For_IO` for this sub-device. -/
theorem action_wait {s : State} (h : Calls s ioWait) (k : Shared) (hw : Hw)
    (hline : s.regA1 = i.line) (hdev : s.regA2 = i.dev) (hrecv : s.regA3 ≠ 0 ↔ i.recv) :
    action k (.exception s hw) = .ioWait (k.layout.subSem i) := by
  have hidx : getSemIndex s.regA1 s.regA2 (s.regA3 ≠ 0) = some (BitVec.ofNat 32 i) := by
    rw [hline, hdev, ← getSemIndex_eq i]
    congr 1
    exact Bool.eq_iff_iff.mpr (decide_eq_true_iff.trans hrecv)
  simp only [action, h.code, syscallAction, h.kernelMode, h.number, hidx]
  rfl

end SubDevice

/-- An interrupt of terminal `n`, whose halves show `recv` and `transm`. -/
structure TermInterrupts (recv transm : Word) (n : Fin devPerLine) (saved : State) (hw : Hw) :
    Prop where
  code : causeGetExcCode saved.cause = excInt
  pending : pendingLine saved.cause = some termInt
  device : getDeviceNoFromLine (hw.bitmap 7) = BitVec.ofNat 32 n
  recv : (hw.devReg 7 (BitVec.ofNat 32 n)).recvStatus = recv
  transm : (hw.devReg 7 (BitVec.ofNat 32 n)).transmStatus = transm

/-- An interrupt has been handled for the half `i` of a terminal, which has
completed: it is the one that is acknowledged, and those who wait for it are
those whose queue moves, with its status. -/
structure Serves (i : SubDevice) (hw : Hw) (k k' : Kernel Queues) : Prop where
  finished : Finished (i.status (hw.devReg 7 i.dev))
  acknowledged : k'.devReg 7 i.dev = i.acknowledge (hw.devReg 7 i.dev)
  waited : ∀ s hw', Calls s ioWait → s.regA1 = i.line → s.regA2 = i.dev →
    (s.regA3 ≠ 0 ↔ i.recv) → action k.toShared (.exception s hw') = .ioWait (k.layout.subSem i)
  completed : Completed (k.layout.subSem i) (i.status (hw.devReg 7 i.dev)) k k'
  spared : ∀ j : SubDevice, j ≠ i →
    k'.blockedOn (k.layout.subSem j) = k.blockedOn (k.layout.subSem j)

/-- Whenever a terminal with these statuses interrupts, a half of it that has
completed is served. -/
def Demultiplexed (recv transm : Word) : Prop :=
  ∀ k n saved hw, Reachable k → TermInterrupts recv transm n saved hw →
    takesException k.cpu saved.cause = true →
      (∃ k', Step k (.exception saved hw) k') ∧
        ∀ k', Step k (.exception saved hw) k' →
          ∃ b, Serves (.half b n) hw k k'

namespace TermInterrupts

variable {recv transm : Word} {n : Fin devPerLine} {saved : State} {hw : Hw}

/-- The half that `terminalIsRECV` chooses. -/
theorem chosen (h : TermInterrupts recv transm n saved hw) :
    let i := SubDevice.half (recv ≠ ready) n
    deviceIndex hw 7 = some (BitVec.ofNat 32 i) ∧
      hw.answer 7 = i.status (hw.devReg 7 i.dev) ∧
      hw.acknowledged 7 = i.acknowledge (hw.devReg 7 i.dev) := by
  intro i
  obtain ⟨hline, hdev, hrecv⟩ : i.line = 7 ∧ i.dev = _ ∧ i.recv = _ :=
    SubDevice.half_spec (recv ≠ ready) n
  have hget := SubDevice.getSemIndex_eq i
  have hisRecv : terminalIsRECV (hw.devReg 7 (BitVec.ofNat 32 n)) = i.recv := by
    rw [terminalIsRECV, h.recv, hrecv]
  refine ⟨?_, ?_, ?_⟩
  · simp only [deviceIndex, h.device, hisRecv]
    rw [← hget, hline, hdev]
    rfl
  · simp only [Hw.answer, h.device, getTermStatus, hisRecv, if_true]
    rw [hdev]
    rfl
  · simp only [Hw.acknowledged, h.device, acknowledgeTermInterrupt, hisRecv, if_true]
    rw [hdev]
    rfl

theorem interrupts (h : TermInterrupts recv transm n saved hw) :
    Interrupts termInt (BitVec.ofNat 32 (SubDevice.half (recv ≠ ready) n)) saved hw :=
  ⟨h.code, h.pending, h.chosen.1, by decide, by decide⟩

/-- It is served, whether it has completed or not. -/
theorem step {k k' : Kernel Queues} {c : Core} (h : TermInterrupts recv transm n saved hw)
    (hc : Rep k c) (hs : Step k (.exception saved hw) k') :
    let i := SubDevice.half (recv ≠ ready) n
    Completed (k.layout.subSem i) (i.status (hw.devReg 7 i.dev)) k k' ∧
      k'.devReg 7 i.dev = i.acknowledge (hw.devReg 7 i.dev) := by
  intro i
  obtain ⟨-, hanswer, hack⟩ := h.chosen
  have hdev : i.dev = BitVec.ofNat 32 n := (SubDevice.half_spec (recv ≠ ready) n).2.1
  obtain ⟨hdone, hreg⟩ := hc.step_completed h.interrupts hs
  refine ⟨?_, ?_⟩
  · rw [← hanswer]
    exact hdone
  · rw [← hack, hdev, ← h.device]
    exact hreg

end TermInterrupts

/-- Otherwise the receiver is acknowledged although it has not completed. -/
theorem Demultiplexed.recv {recv transm : Word} (h : Demultiplexed recv transm) :
    recv = ready ∨ Finished recv := by
  by_contra hno
  obtain ⟨hready, hfin⟩ := not_or.mp hno
  obtain ⟨k, hboot, hrep⟩ := main_rep .zero .zero
  let saved : State := { zeroState with cause := causeIp termInt }
  let hw : Hw := { Hw.zero with bitmap := fun _ => 1, devReg := fun _ _ => ⟨recv, 0, transm, 0⟩ }
  have hterm : TermInterrupts recv transm 0 saved hw :=
    ⟨by decide, by decide, show getDeviceNoFromLine 1 = 0 by decide, rfl, rfl⟩
  have hbusy : takesException k.cpu saved.cause = true := by
    rw [takesException, Cpu.mode_eq_busy.mp hrep.mode.symm]
    rfl
  obtain ⟨⟨k', hs⟩, hall⟩ := h k 0 saved hw ⟨k, [], ⟨_, _, hboot⟩, .nil⟩ hterm hbusy
  obtain ⟨b, hserves⟩ := hall k' hs
  cases b with
  | true => exact hfin hserves.finished
  | false =>
      have hreg := (hterm.step hrep hs).2
      have hrecv : decide (recv ≠ ready) = true := decide_eq_true hready
      rw [hrecv] at hreg
      have hcommand : ack = 0 := congrArg DevReg.word1 (hreg.symm.trans hserves.acknowledged)
      exact absurd hcommand (by decide)

/-- An interrupt of a terminal is handled for a half that has completed if and
only if the receiver is `READY` or has completed. -/
theorem demultiplexed_iff {recv transm : Word} (h : Finished recv ∨ Finished transm) :
    Demultiplexed recv transm ↔ recv = ready ∨ Finished recv := by
  constructor
  · exact Demultiplexed.recv
  · intro hrecv k n saved hw hreach hterm hcpu
    obtain ⟨c, hc⟩ := hreach.rep
    have hlt : (BitVec.ofNat 32 (SubDevice.half (recv ≠ ready) n)).toNat < deviceNum := by
      have := (SubDevice.half (recv ≠ ready) n).isLt
      rw [BitVec.toNat_ofNat]
      simp only [deviceNum]
      omega
    refine ⟨hc.exists_step hterm.interrupts hlt hcpu, fun k' hs => ⟨recv ≠ ready, ?_⟩⟩
    obtain ⟨hdone, hreg⟩ := hterm.step hc hs
    obtain ⟨-, hdev, hhalf⟩ := SubDevice.half_spec (recv ≠ ready) n
    constructor
    case finished =>
      rw [hdev, SubDevice.status, hhalf, hterm.recv, hterm.transm]
      rcases hrecv with hready | hfin
      · subst hready
        exact h.resolve_left (by decide)
      · have hne : recv ≠ ready := by
          rintro rfl
          exact absurd hfin (by decide)
        rw [decide_eq_true hne]
        exact hfin
    case acknowledged => exact hreg
    case waited =>
      intro s hw' hcalls h1 h2 h3
      exact SubDevice.action_wait _ hcalls _ hw' h1 h2 h3
    case completed => exact hdone
    case spared =>
      intro j hj
      refine (hdone.others _ fun e => hj ?_).1
      have hjlt := j.isLt
      have hilt := (SubDevice.half (recv ≠ ready) n).isLt
      exact Fin.ext (k.layout.semAdd_inj (by simp only [deviceNum]; omega)
        (by simp only [deviceNum]; omega) e)

/-- The character of terminal 0 has been sent, and its receiver is ready. -/
theorem demultiplexed_iff_ready : Finished 5 ∧ Demultiplexed 1 5 :=
  ⟨by decide, (demultiplexed_iff (.inr (by decide))).mpr (.inl rfl)⟩

/-- The first process waits for a key, and a character is sent while the
receiver is busy. -/
def busyScript : List Event :=
  [callCreate, syscall ioWait 7 0 1,
    .exception { zeroState with cause := causeIp termInt }
      { Hw.zero with bitmap := fun _ => 1, devReg := fun _ _ => ⟨3, 0, 5, 0⟩ },
    pltTick]

/-- It is woken with the status of a receiver that is still busy. -/
theorem not_demultiplexed_busy : ¬ Finished 3 ∧ Finished 5 ∧ ¬ Demultiplexed 3 5 ∧
    ∃ k₀ tr k s, Boot k₀ ∧ Run k₀ tr k ∧ tr.map Trans.event = busyScript ∧
      (tr[2]?.any fun x => x.before.blockedOn (x.before.layout.subSem (.half true 0)) = [0]) ∧
      k.currentProcess = some 0 ∧ k.cpu = .running s ∧ s.regV0 = 3 := by
  have hdemux : ¬ Demultiplexed 3 5 := fun h => absurd h.recv (by decide)
  have hany : (Script.eval walkFuel .zero .zero busyScript).any (fun x =>
      (x.trace[2]?.any fun y => y.before.blockedOn (y.before.layout.subSem (.half true 0)) = [0]) ∧
        x.final.currentProcess = some 0 ∧ x.final.cpu.state.any (fun s => s.regV0 = 3)) = true := by
    decide +kernel
  obtain ⟨x, hx, h⟩ := Script.exists_of_any hany
  obtain ⟨hblocked, hcur, hstate⟩ := of_decide_eq_true h
  obtain ⟨hboot, hrun, hevents⟩ := Script.run hx
  obtain ⟨s, hs, hv⟩ := Cpu.exists_of_state hstate
  exact ⟨by decide, by decide, hdemux, x.start, x.trace, x.final, s, hboot, hrun, hevents, hblocked,
    hcur, hs, of_decide_eq_true hv⟩

end Pandos
