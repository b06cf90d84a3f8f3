/-
# `Pandos.Books` — what a handler leaves in the PCBs and the clocks

A handler that returns has changed the saved states, the CPU times and the
device registers in a way that does not depend on the queues.  One lemma for
each handler says how, in terms of

    Untouched k k'   the books of `k'` are those of `k`
    Leads w t k k'   they are, and if a process runs now (`w`, if that is
                     known) it runs from its saved state, and its time
                     counts from `t`

The lemmas follow the handlers' text, once for pointers and lists.
-/
import Pandos.Core

namespace Pandos

open Kernel Simulation

variable {Q : Type} {k k' d : Kernel Q} {hw : Hw} {fuel : Nat} {p cur : PcbPtr}

/-- Only the queues, the process tree, the memory, the counters and the timers differ. -/
def Untouched (k k' : Kernel Q) : Prop :=
  k'.toShared = { k.toShared with
    tree := k'.tree, mem := k'.mem, processCount := k'.processCount
    softBlockedCount := k'.softBlockedCount, timer := k'.timer
    intervalTimer := k'.intervalTimer }

namespace Untouched

theorem refl (k : Kernel Q) : Untouched k k := rfl

theorem trans (h : Untouched k k') (h' : Untouched k' d) : Untouched k d := by
  unfold Untouched at *
  rw [h', h]

theorem pS (h : Untouched k k') : k'.pS = k.pS :=
  (congrArg Shared.pS h :)
theorem pTime (h : Untouched k k') : k'.pTime = k.pTime :=
  (congrArg Shared.pTime h :)
theorem devReg (h : Untouched k k') : k'.devReg = k.devReg :=
  (congrArg Shared.devReg h :)
theorem startT (h : Untouched k k') : k'.startT = k.startT :=
  (congrArg Shared.startT h :)
theorem biosDataPage (h : Untouched k k') : k'.biosDataPage = k.biosDataPage :=
  (congrArg Shared.biosDataPage h :)
theorem currentProcess (h : Untouched k k') : k'.currentProcess = k.currentProcess :=
  (congrArg Shared.currentProcess h :)
theorem supp (h : Untouched k k') : k'.supp = k.supp :=
  (congrArg Shared.supp h :)
theorem tlb (h : Untouched k k') : k'.tlb = k.tlb :=
  (congrArg Shared.tlb h :)

end Untouched

/-- The saved states, times and registers are those of `k`; a process that
runs now was loaded from its saved state, and its time counts from `t`. -/
structure Leads (w : Option PcbPtr) (t : Int) (k k' : Kernel Q) : Prop where
  pS : k'.pS = k.pS
  pTime : k'.pTime = k.pTime
  devReg : k'.devReg = k.devReg
  busy : k'.cpu.busy → k'.startT = t ∧
    ∃ p, k'.currentProcess = some p ∧ k'.cpu = .running (k.pS p) ∧ ∀ cur ∈ w, cur = p

namespace Leads

variable {w : Option PcbPtr} {t t' : Int}

theorem load (k : Kernel Q) (p : PcbPtr) : Leads (some p) k.startT k (loadProcess k p) :=
  ⟨rfl, rfl, rfl, fun _ => ⟨rfl, p, rfl, rfl, fun _ e => (Option.some.inj e).symm⟩⟩

theorem panic (w : Option PcbPtr) (t : Int) (k : Kernel Q) : Leads w t k k.panic :=
  ⟨rfl, rfl, rfl, nofun⟩

theorem congr (h : Leads w t k k') (hpS : d.pS = k.pS) (hpTime : d.pTime = k.pTime)
    (hdevReg : d.devReg = k.devReg) (ht : t = t') : Leads w t' d k' := by
  subst ht
  refine ⟨h.pS.trans hpS.symm, h.pTime.trans hpTime.symm, h.devReg.trans hdevReg.symm, ?_⟩
  rw [hpS]
  exact h.busy

theorem of_untouched (hu : Untouched k d) (h : Leads w t d k') : Leads w t k k' :=
  h.congr hu.pS.symm hu.pTime.symm hu.devReg.symm rfl

end Leads

/-! ## Queues and terminations -/

variable [QueueOps Q]

theorem insertProcQReady_untouched (h : insertProcQReady k p = some k') : Untouched k k' := by
  obtain ⟨q, -, ⟨⟩⟩ := Option.bind_eq_some_iff.mp h
  rfl

theorem wake_untouched {tmp : Option PcbPtr} (h : wake k tmp = some k') : Untouched k k' := by
  cases tmp with
  | none =>
      obtain rfl := Option.some.inj h
      exact .refl k
  | some tmp => exact insertProcQReady_untouched h

theorem freePcb_untouched (h : freePcb k p = some k') : Untouched k k' := by
  obtain ⟨q, -, ⟨⟩⟩ := Option.bind_eq_some_iff.mp h
  rfl

theorem releasePcb_untouched (h : releasePcb k p = some k') : Untouched k k' := by
  unfold releasePcb at h
  dsimp only at h
  split at h
  · obtain ⟨⟨r, q⟩, -, h⟩ := Option.bind_eq_some_iff.mp h
    have hfree := freePcb_untouched h
    exact .trans rfl hfree
  · obtain ⟨⟨r, q⟩, -, h⟩ := Option.bind_eq_some_iff.mp h
    have hfree := freePcb_untouched h
    exact .trans rfl hfree

mutual

theorem terminateProcessRec_untouched : ∀ {fuel : Nat} {k k' : Kernel Q} {p : PcbPtr},
    terminateProcessRec fuel k p = some k' → Untouched k k'
  | 0, _, _, _, h => nomatch h
  | fuel + 1, k, k', p, h => by
      obtain ⟨k₁, h₁, h₂⟩ := Option.bind_eq_some_iff.mp h
      have hchildren := terminateChildren_untouched h₁
      exact .trans (.trans rfl hchildren) (releasePcb_untouched h₂)

theorem terminateChildren_untouched : ∀ {fuel : Nat} {k k' : Kernel Q} {p : PcbPtr},
    terminateChildren fuel k p = some k' → Untouched k k'
  | 0, _, _, _, h => nomatch h
  | fuel + 1, k, k', p, h => by
      unfold terminateChildren at h
      split at h
      · obtain rfl := Option.some.inj h
        exact .refl k
      · split at h
        next tree _ =>
          have hrest := terminateChildren_untouched h
          exact .trans rfl hrest
        next child tree _ =>
          obtain ⟨k₁, h₁, h₂⟩ := Option.bind_eq_some_iff.mp h
          have hchild := terminateProcessRec_untouched h₁
          exact .trans (.trans rfl hchild) (terminateChildren_untouched h₂)

end

theorem scheduler_leads (h : scheduler hw k = some k') : Leads none hw.startT k k' := by
  obtain ⟨⟨p, q⟩, -, h⟩ := Option.bind_eq_some_iff.mp h
  cases p with
  | some p =>
      obtain rfl := Option.some.inj h
      exact ⟨rfl, rfl, rfl, fun _ => ⟨rfl, p, rfl, rfl, by simp⟩⟩
  | none =>
      dsimp only at h
      split at h
      · obtain rfl := Option.some.inj h
        exact ⟨rfl, rfl, rfl, nofun⟩
      · split at h
        · obtain rfl := Option.some.inj h
          exact ⟨rfl, rfl, rfl, nofun⟩
        · obtain rfl := Option.some.inj h
          exact ⟨rfl, rfl, rfl, nofun⟩

/-- The scheduler changes neither the support structures nor the TLB. -/
theorem scheduler_keeps (h : scheduler hw k = some k') :
    k'.supp = k.supp ∧ k'.tlb = k.tlb ∧ k'.tlbIndex = k.tlbIndex := by
  obtain ⟨⟨p, q⟩, -, h⟩ := Option.bind_eq_some_iff.mp h
  cases p with
  | some p =>
      obtain rfl := Option.some.inj h
      exact ⟨rfl, rfl, rfl⟩
  | none =>
      dsimp only at h
      split at h
      · obtain rfl := Option.some.inj h
        exact ⟨rfl, rfl, rfl⟩
      · split at h
        · obtain rfl := Option.some.inj h
          exact ⟨rfl, rfl, rfl⟩
        · obtain rfl := Option.some.inj h
          exact ⟨rfl, rfl, rfl⟩

/-! ## System calls -/

theorem createProcessCall_leads (h : createProcessCall hw k cur = some k') :
    (∃ q, QueueOps.allocPcbRing k.q = some (none, q) ∧
      Leads (some cur) k.startT (k.setState cur ((k.pS cur).setV0 (-1))) k') ∨
    ∃ tmp q, QueueOps.allocPcbRing k.q = some (some tmp, q) ∧
      let k₁ := { k with pTime := Function.update k.pTime tmp 0 }.setState tmp
        (hw.stateAt (k.pS cur).regA1)
      Leads (some cur) k.startT (k₁.setState cur ((k₁.pS cur).setV0 0)) k' := by
  obtain ⟨⟨tmp, k₁⟩, hal, h⟩ := Option.bind_eq_some_iff.mp h
  obtain ⟨⟨r, q⟩, hring, hal⟩ := Option.bind_eq_some_iff.mp hal
  cases r with
  | none =>
      obtain ⟨rfl, rfl⟩ := Prod.mk.inj (Option.some.inj hal)
      obtain rfl := Option.some.inj h
      exact .inl ⟨q, hring, ⟨rfl, rfl, rfl, fun _ => ⟨rfl, cur, rfl, rfl, by simp⟩⟩⟩
  | some tmp =>
      obtain ⟨rfl, rfl⟩ := Prod.mk.inj (Option.some.inj hal)
      obtain ⟨-, h⟩ := guard_bind_eq_some.mp h
      obtain ⟨k₂, hins, h⟩ := Option.bind_eq_some_iff.mp h
      obtain ⟨t, -, h⟩ := Option.bind_eq_some_iff.mp h
      obtain ⟨qr, -, ⟨⟩⟩ := Option.bind_eq_some_iff.mp hins
      obtain rfl := Option.some.inj h
      refine .inr ⟨tmp, q, hring, ?_⟩
      rw [copyState_eq]
      exact ⟨rfl, rfl, rfl, fun _ => ⟨rfl, cur, rfl, rfl, by simp⟩⟩

theorem terminateProcess_leads (h : terminateProcess fuel hw k cur = some k') :
    Leads none hw.startT k k' := by
  obtain ⟨k₁, h₁, h₂⟩ := Option.bind_eq_some_iff.mp h
  exact .of_untouched (terminateProcessRec_untouched h₁) (scheduler_leads h₂)

/-- The time of `cur` up to the exception. -/
def Kernel.charge (k : Kernel Q) (hw : Hw) (cur : PcbPtr) : Kernel Q :=
  k.addTime cur (hw.stopT - k.startT)

theorem blockCurrentProcessAt_leads {sem : Word} {k₀ : Kernel Q}
    (h₁ : blockCurrentProcessAt hw k sem cur = some d) (h₂ : scheduler hw d = some k')
    (hu : Untouched k₀ k) : Leads none hw.startT (k₀.charge hw cur) k' := by
  obtain ⟨⟨b, q⟩, -, ⟨⟩⟩ := Option.bind_eq_some_iff.mp h₁
  refine (scheduler_leads h₂).congr ?_ ?_ ?_ rfl
  · exact hu.pS.symm
  · show Function.update k₀.pTime cur _ = Function.update k.pTime cur _
    rw [hu.pTime, hu.startT]
  · exact hu.devReg.symm

/-- The calls that block or return at once. -/
def Waits (hw : Hw) (k : Kernel Q) (cur : PcbPtr) (k' : Kernel Q) : Prop :=
  Leads (some cur) k.startT k k' ∨ Leads none hw.startT (k.charge hw cur) k'

theorem passeren_leads (h : passeren hw k cur = some k') : Waits hw k cur k' := by
  obtain ⟨-, h⟩ := guard_bind_eq_some.mp h
  dsimp only at h
  split at h
  · obtain ⟨k₁, h₁, h₂⟩ := Option.bind_eq_some_iff.mp h
    exact .inr (blockCurrentProcessAt_leads h₁ h₂ rfl)
  · obtain rfl := Option.some.inj h
    exact .inl ⟨rfl, rfl, rfl, fun _ => ⟨rfl, cur, rfl, rfl, by simp⟩⟩

theorem verhogen_leads (h : verhogen k cur = some k') : Leads (some cur) k.startT k k' := by
  obtain ⟨-, h⟩ := guard_bind_eq_some.mp h
  obtain ⟨⟨tmp, q⟩, -, h⟩ := Option.bind_eq_some_iff.mp h
  obtain ⟨k₁, hk₁, h⟩ := Option.bind_eq_some_iff.mp h
  obtain rfl := Option.some.inj h
  have hwake := wake_untouched hk₁
  have hu : Untouched k k₁ := .trans rfl hwake
  exact (Leads.load k₁ cur).congr hu.pS.symm hu.pTime.symm hu.devReg.symm hu.startT

theorem waitForIo_leads (h : waitForIo hw k cur = some k') : Waits hw k cur k' := by
  unfold waitForIo at h
  dsimp only at h
  split at h
  · obtain rfl := Option.some.inj h
    exact .inl (.panic _ _ k)
  · obtain ⟨-, h⟩ := guard_bind_eq_some.mp h
    obtain ⟨k₁, h₁, h₂⟩ := Option.bind_eq_some_iff.mp h
    exact .inr (blockCurrentProcessAt_leads h₁ h₂ rfl)

theorem waitForClock_leads (h : waitForClock hw k cur = some k') : Waits hw k cur k' := by
  unfold waitForClock at h
  dsimp only at h
  split at h
  · obtain ⟨k₁, h₁, h₂⟩ := Option.bind_eq_some_iff.mp h
    exact .inr (blockCurrentProcessAt_leads h₁ h₂ rfl)
  · obtain rfl := Option.some.inj h
    exact .inl ⟨rfl, rfl, rfl, fun _ => ⟨rfl, cur, rfl, rfl, by simp⟩⟩

/-- What `SYSCALL(GETTIME)` leaves. -/
def Kernel.reported (k : Kernel Q) (hw : Hw) (cur : PcbPtr) : Kernel Q :=
  let k := k.charge hw cur
  k.setState cur ((k.pS cur).setV0 (BitVec.ofInt 32 (k.pTime cur)))

omit [QueueOps Q] in
theorem getCpuTime_leads (hw : Hw) (k : Kernel Q) (cur : PcbPtr) :
    Leads (some cur) hw.stopT (k.reported hw cur) (getCpuTime hw k cur) :=
  ⟨rfl, rfl, rfl, fun _ => ⟨rfl, cur, rfl, rfl, by simp⟩⟩

omit [QueueOps Q] in
theorem getSupportData_leads (k : Kernel Q) (cur : PcbPtr) :
    Leads (some cur) k.startT (k.setState cur ((k.pS cur).setV0 (k.pSupportStruct cur)))
      (getSupportData k cur) :=
  ⟨rfl, rfl, rfl, fun _ => ⟨rfl, cur, rfl, rfl, by simp⟩⟩

omit [QueueOps Q] in
/-- The state of the caller is saved, and it will go on behind the call. -/
theorem saveState_pS (k : Kernel Q) (cur : PcbPtr) :
    (saveState k cur).pS = Function.update k.pS cur
      { k.biosDataPage with pcEpc := k.biosDataPage.pcEpc + 4 } := by
  simp [saveState, Kernel.setState]

abbrev nucleusCalls : List Word :=
  [createProcess, termProcess, passerenCall, verhogenCall, ioWait, getTime, clockWait, getSupportPtr]

/-- The call `n` of `cur` has been served. -/
inductive Served (fuel : Nat) (hw : Hw) (k : Kernel Q) (cur : PcbPtr) (k' : Kernel Q) :
    Word → Prop where
  | create : createProcessCall hw k cur = some k' → Served fuel hw k cur k' createProcess
  | terminate : terminateProcess fuel hw k cur = some k' → Served fuel hw k cur k' termProcess
  | passeren : passeren hw k cur = some k' → Served fuel hw k cur k' passerenCall
  | verhogen : verhogen k cur = some k' → Served fuel hw k cur k' verhogenCall
  | ioWait : waitForIo hw k cur = some k' → Served fuel hw k cur k' ioWait
  | getTime : k' = getCpuTime hw k cur → Served fuel hw k cur k' getTime
  | clockWait : waitForClock hw k cur = some k' → Served fuel hw k cur k' clockWait
  | getSupportPtr : k' = getSupportData k cur → Served fuel hw k cur k' getSupportPtr
  | passup {n} : n ∉ nucleusCalls → passupOrDie fuel hw k generalExcept = some k' →
      Served fuel hw k cur k' n

theorem handleNucleousSystemcalls_served (hm : k.biosDataPage.status &&& userPOn = 0)
    (h : handleNucleousSystemcalls fuel hw k = some k') :
    ∃ cur, k.currentProcess = some cur ∧
      Served fuel hw (saveState k cur) cur k' k.biosDataPage.regA0 := by
  unfold handleNucleousSystemcalls at h
  rw [if_neg (not_not.mpr hm)] at h
  obtain ⟨cur, hcur, h⟩ := Option.bind_eq_some_iff.mp h
  refine ⟨cur, hcur, ?_⟩
  dsimp only at h
  generalize k.biosDataPage.regA0 = n at h ⊢
  split at h
  next hn => exact hn ▸ .create h
  split at h
  next hn => exact hn ▸ .terminate h
  split at h
  next hn => exact hn ▸ .passeren h
  split at h
  next hn => exact hn ▸ .verhogen h
  split at h
  next hn => exact hn ▸ .ioWait h
  split at h
  next hn => exact hn ▸ .getTime (Option.some.inj h).symm
  split at h
  next hn => exact hn ▸ .clockWait h
  split at h
  next hn => exact hn ▸ .getSupportPtr (Option.some.inj h).symm
  rename_i h1 h2 h3 h4 h5 h6 h7 h8
  refine .passup ?_ h
  simp only [List.mem_cons, List.not_mem_nil, or_false, not_or]
  exact ⟨h1, h2, h3, h4, h5, h6, h7, h8⟩

/-- Only interrupts come while no process runs. -/
theorem busy_of_takesException {cpu : Cpu} {cause : Word} (h : takesException cpu cause = true)
    (hc : causeGetExcCode cause ≠ excInt) : cpu.busy = true := by
  simpa only [takesException, decide_eq_false hc, Bool.and_false, Bool.or_false] using h

/-! ## Interrupts -/

/-- The state in which an exception is handled. -/
abbrev Kernel.entered (k : Kernel Q) (saved : State) (hw : Hw) : Kernel Q :=
  { k with biosDataPage := saved, devReg := hw.devReg }

/-- The interrupted process gets its state back. -/
def Kernel.interrupted (k : Kernel Q) (hw : Hw) (cur : PcbPtr) : Kernel Q :=
  (k.charge hw cur).setState cur k.biosDataPage

/-- An interrupt is over for the process it has interrupted, if any. -/
def Kernel.suspended (k : Kernel Q) (hw : Hw) : Kernel Q :=
  match k.currentProcess with
  | some cur => k.interrupted hw cur
  | none => k

theorem resumeAfterInterrupt_leads (h : resumeAfterInterrupt hw k = some k') :
    Leads none hw.startT (k.suspended hw) k' := by
  unfold Kernel.suspended
  cases hcur : k.currentProcess with
  | some cur =>
      simp only [resumeAfterInterrupt, hcur, copyState_eq] at h
      obtain rfl := Option.some.inj h
      exact ⟨rfl, rfl, rfl, fun _ => ⟨rfl, cur, rfl, rfl, by simp⟩⟩
  | none =>
      simp only [resumeAfterInterrupt, hcur] at h
      exact scheduler_leads h

theorem handlePLTInterrupt_leads (h : handlePLTInterrupt hw k = some k') :
    Leads none hw.startT (k.suspended hw) k' := by
  obtain ⟨sh, q⟩ := k
  unfold Kernel.suspended
  cases hcur : sh.currentProcess with
  | some cur =>
      simp only [handlePLTInterrupt, setTimer, hcur, copyState_eq] at h
      obtain ⟨k₁, hins, h⟩ := Option.bind_eq_some_iff.mp h
      have hu := insertProcQReady_untouched hins
      exact (Leads.of_untouched hu (scheduler_leads h)).congr rfl rfl rfl rfl
  | none =>
      simp only [handlePLTInterrupt, setTimer, hcur] at h
      obtain rfl := Option.some.inj h
      exact ⟨rfl, rfl, rfl, nofun⟩

theorem clockLoop_untouched : ∀ {fuel : Nat} {k k' : Kernel Q}, clockLoop fuel k = some k' →
    Untouched k k'
  | 0, _, _, h => nomatch h
  | fuel + 1, k, k', h => by
      obtain ⟨⟨tmp, q⟩, -, h⟩ := Option.bind_eq_some_iff.mp h
      cases tmp with
      | none =>
          obtain rfl := Option.some.inj h
          rfl
      | some tmp =>
          obtain ⟨k₁, hins, h⟩ := Option.bind_eq_some_iff.mp h
          have hu := insertProcQReady_untouched hins
          have hrest := clockLoop_untouched h
          exact .trans (.trans rfl hu) (.trans rfl hrest)

theorem handleIntervalTimerInterrupt_untouched (h : handleIntervalTimerInterrupt k = some k') :
    Untouched k k' := by
  obtain ⟨k₁, hloop, h⟩ := Option.bind_eq_some_iff.mp h
  obtain rfl := Option.some.inj h
  have hu := clockLoop_untouched hloop
  exact .trans (.trans rfl hu) rfl

/-- The process a completion on `sem` wakes gets the status. -/
def Kernel.answered (k : Kernel Q) (status : Word) : Option PcbPtr → Kernel Q
  | none => k
  | some p => k.setState p ((k.pS p).setV0 status)

theorem releaseSemAndUpdateStatus_untouched {i status : Word}
    (h : releaseSemAndUpdateStatus k i status = some k') :
    (0 < k.mem (k.layout.semAdd i) ∧ Untouched k k') ∨
      k.mem (k.layout.semAdd i) ≤ 0 ∧
        ∃ tmp q, QueueOps.removeBlocked k.q (k.layout.semAdd i) = some (tmp, q) ∧
          Untouched (k.answered status tmp) k' := by
  obtain ⟨-, h⟩ := guard_bind_eq_some.mp h
  dsimp only at h
  split at h
  next hle =>
    obtain ⟨⟨tmp, q⟩, hrem, h⟩ := Option.bind_eq_some_iff.mp h
    refine .inr ⟨hle, tmp, q, hrem, ?_⟩
    cases tmp with
    | none =>
        obtain rfl := Option.some.inj h
        rfl
    | some tmp =>
        obtain ⟨k₁, hins, h⟩ := Option.bind_eq_some_iff.mp h
        obtain ⟨qr, -, ⟨⟩⟩ := Option.bind_eq_some_iff.mp hins
        obtain rfl := Option.some.inj h
        rfl
  next hlt =>
    obtain rfl := Option.some.inj h
    exact .inl ⟨not_le.mp hlt, rfl⟩

/-- What the device of `line` that interrupts answers. -/
def Hw.answer (hw : Hw) (line : Word) : Word :=
  let dev := hw.devReg line (getDeviceNoFromLine (hw.bitmap line))
  if line = 7 then getTermStatus dev else dev.status

/-- The register of the device of `line` that interrupts, acknowledged. -/
def Hw.acknowledged (hw : Hw) (line : Word) : DevReg :=
  let dev := hw.devReg line (getDeviceNoFromLine (hw.bitmap line))
  if line = 7 then acknowledgeTermInterrupt dev else acknowledgeDTPInterrupt dev

/-- A handler that returns has found a semaphore. -/
theorem handleDeviceInterrupt_eq {line i : Word} (hdev : k.devReg = hw.devReg)
    (hi : deviceIndex hw line = some i) :
    handleDeviceInterrupt hw k line =
      (releaseSemAndUpdateStatus
        (setDevReg k line (getDeviceNoFromLine (hw.bitmap line)) (hw.acknowledged line)) i
        (hw.answer line)).bind fun k => some { k with startT := hw.timerEnd } := by
  simp only [deviceIndex] at hi
  simp only [handleDeviceInterrupt, hdev, hi, Hw.acknowledged, Hw.answer, decide_eq_true_eq]
  rfl

/-- The state before an interrupt is over: nothing but timers and queues, or
the semaphore of a device. -/
inductive Handled (hw : Hw) (k : Kernel Q) : Kernel Q → Prop where
  | quiet {d : Kernel Q} : (∀ s, interruptAction k.toShared k.biosDataPage hw ≠ .device s) →
      Untouched k d → Handled hw k d
  | device {line i} {d : Kernel Q} : pendingLine k.biosDataPage.cause = some line →
      deviceIndex hw (BitVec.ofNat 32 line) = some i →
      interruptAction k.toShared k.biosDataPage hw = .device (k.layout.semAdd i) →
      i.toNat < deviceNum →
      releaseSemAndUpdateStatus (setDevReg k (BitVec.ofNat 32 line)
        (getDeviceNoFromLine (hw.bitmap (BitVec.ofNat 32 line)))
        (hw.acknowledged (BitVec.ofNat 32 line))) i (hw.answer (BitVec.ofNat 32 line)) = some d →
      Handled hw k { d with startT := hw.timerEnd }

theorem handleInterrupts_handled (hdev : k.devReg = hw.devReg)
    (h : handleInterrupts hw k = some k') :
    ∃ d, Handled hw k d ∧ Leads none hw.startT (d.suspended hw) k' := by
  have hquiet : ∀ act, (∀ s, act ≠ .device s) →
      interruptAction k.toShared k.biosDataPage hw = act →
      ∀ s, interruptAction k.toShared k.biosDataPage hw ≠ .device s := by
    intro act hne hact s
    rw [hact]
    exact hne s
  unfold handleInterrupts at h
  cases hl : pendingLine k.biosDataPage.cause with
  | none =>
      simp only [hl] at h
      refine ⟨k, .quiet (hquiet .spurious nofun ?_) (.refl k), resumeAfterInterrupt_leads h⟩
      simp only [interruptAction, hl]
  | some line =>
      simp only [hl] at h
      split at h
      next hplt =>
        refine ⟨k, .quiet (hquiet .plt nofun ?_) (.refl k), handlePLTInterrupt_leads h⟩
        simp only [interruptAction, hl, if_pos hplt]
      next hplt =>
        split at h
        next htick =>
          obtain ⟨d, hd, h⟩ := Option.bind_eq_some_iff.mp h
          have hu := handleIntervalTimerInterrupt_untouched hd
          refine ⟨d, .quiet (hquiet (.tick k.layout.clockSemaphore) nofun ?_) hu,
            resumeAfterInterrupt_leads h⟩
          simp only [interruptAction, hl, if_neg hplt, if_pos htick]
        next htick =>
          obtain ⟨i, hi⟩ := Option.isSome_iff_exists.mp (deviceIndex_isSome hl hplt htick)
          obtain ⟨d, hd, h⟩ := Option.bind_eq_some_iff.mp h
          rw [handleDeviceInterrupt_eq hdev hi] at hd
          obtain ⟨d₀, hd₀, hd⟩ := Option.bind_eq_some_iff.mp hd
          obtain rfl := Option.some.inj hd
          refine ⟨_, .device hl hi ?_ (guard_bind_eq_some.mp hd₀).1 hd₀,
            resumeAfterInterrupt_leads h⟩
          simp only [interruptAction, hl, if_neg hplt, if_neg htick, hi]

end Pandos
