/-
# `Pandos.Progress` — the nucleus comes back

`Accepts k e` says which events the nucleus can handle in the state `k`: those
of the exception codes the `switch` lists, unless the registers of a call or
the bitmap of an interrupt make the nucleus follow a bad pointer.  In every
run whose terminations find their back links right nothing else goes wrong
(`accepted_iff`): no handler follows a null pointer, no loop goes on for ever,
and the recursion of `terminate_Process_rec` stays below `walkFuel`.
-/
import Pandos.Ownership

namespace Pandos

open Simulation Kernel

/-! ## What can be handled -/

/-- The bitmap of the disks has a bit for a disk interrupt to be about. -/
def InterruptAccepted (s : State) (hw : Hw) : Prop :=
  pendingLine s.cause = some diskInt → getDeviceNoFromLine (hw.bitmap 3) ≠ -1

/-- Pointers and device numbers in the registers of a call are good. -/
structure CallAccepted (full : Prop) (s : State) : Prop where
  create : s.regA0 = createProcess → full ∨ accessible s.regA1
  passeren : s.regA0 = passerenCall → accessible s.regA1
  verhogen : s.regA0 = verhogenCall → accessible s.regA1
  ioWait : s.regA0 = ioWait → ∀ i, getSemIndex s.regA1 s.regA2 (s.regA3 ≠ 0) = some i →
    i.toNat < deviceNum

structure ExceptionAccepted (full : Prop) (s : State) (hw : Hw) : Prop where
  code : causeGetExcCode s.cause ≤ excOv
  interrupt : causeGetExcCode s.cause = excInt → InterruptAccepted s hw
  call : causeGetExcCode s.cause = excSys → s.status &&& userPOn = 0 → CallAccepted full s

def Accepts (k : Kernel Queues) : Event → Prop
  | .exception s hw => takesException k.cpu s.cause ∧ ExceptionAccepted (k.q.pcbFreeH = none) s hw
  | .refill _ _ _ => k.cpu.busy ∧ ∀ p, k.currentProcess = some p → k.pSupportStruct p ≠ 0
  | .store _ _ => k.cpu.busy

/-! ## The devices of a line -/

theorem getDeviceNoFromLine_cases (bitmap : Word) :
    getDeviceNoFromLine bitmap = -1 ∨ (getDeviceNoFromLine bitmap).toNat < devPerLine := by
  unfold getDeviceNoFromLine
  split
  next i hi =>
    have hlt : i < devPerLine := List.mem_range.mp (List.mem_of_find?_eq_some hi)
    refine .inr ?_
    rw [BitVec.toNat_ofNat]
    omega
  next => exact .inl rfl

/-- Only the first line can run out of `deviceSemaphores`: `-1` is below its
first entry, and on another line it is the last device of the line before. -/
theorem getSemIndex_lt {line d i : Word} {recv : Bool}
    (hline : line = 3 ∨ line = 4 ∨ line = 5 ∨ line = 6 ∨ line = 7)
    (hd : d = -1 ∨ d.toNat < devPerLine) (hi : getSemIndex line d recv = some i) :
    i.toNat < deviceNum ↔ (line = 3 → d ≠ -1) := by
  unfold getSemIndex at hi
  rcases hline with rfl | rfl | rfl | rfl | rfl
  all_goals simp at hi
  case inr.inr.inr.inr =>
    cases recv
    all_goals
      simp at hi
      subst hi
      rcases hd with rfl | hd
      · decide
      · refine iff_of_true ?_ (fun e => nomatch e)
        simp only [deviceNum, devPerLine] at hd ⊢
        bv_omega
  all_goals
    subst hi
    rcases hd with rfl | hd
    · decide
    · have hne : d ≠ -1 := by
        rintro rfl
        exact absurd hd (by decide)
      refine iff_of_true ?_ (fun _ => hne)
      simp only [deviceNum, devPerLine] at hd ⊢
      bv_omega

theorem deviceLine {cause : Word} {line : Nat} (h : pendingLine cause = some line)
    (h1 : line ≠ pltInt) (h2 : line ≠ interTimeInt) :
    BitVec.ofNat 32 line = (3 : Word) ∨ BitVec.ofNat 32 line = (4 : Word) ∨
      BitVec.ofNat 32 line = (5 : Word) ∨ BitVec.ofNat 32 line = (6 : Word) ∨
        BitVec.ofNat 32 line = (7 : Word) := by
  have hmem := pendingLine_mem h
  simp only [List.mem_cons, List.not_mem_nil, or_false] at hmem
  rcases hmem with rfl | rfl | rfl | rfl | rfl | rfl | rfl <;> simp_all

theorem deviceIndex_lt {s : State} {hw : Hw} {line : Nat} {i : Word}
    (h : pendingLine s.cause = some line) (h1 : line ≠ pltInt) (h2 : line ≠ interTimeInt)
    (hi : deviceIndex hw (BitVec.ofNat 32 line) = some i) :
    i.toNat < deviceNum ↔ InterruptAccepted s hw := by
  have hthree : BitVec.ofNat 32 line = (3 : Word) → line = diskInt := by
    have hmem := pendingLine_mem h
    simp only [List.mem_cons, List.not_mem_nil, or_false] at hmem
    rcases hmem with rfl | rfl | rfl | rfl | rfl | rfl | rfl <;> decide
  rw [getSemIndex_lt (deviceLine h h1 h2) (getDeviceNoFromLine_cases _) hi, InterruptAccepted, h]
  constructor
  · intro hne hd
    obtain rfl := Option.some.inj hd
    exact hne rfl
  · intro hne hd
    obtain rfl := hthree hd
    exact hne rfl

/-! ## Over lists -/

section Lists

variable {a : Kernel Fifos} {hw : Hw} {cur : PcbPtr}

/-- The walk through the tree of a process that ends comes to its end. -/
theorem terminateProcess_returns (h : a.core.Tidy)
    (hm : a.core.mode = .busy ∨ a.core.mode = .waiting) (hcur : a.currentProcess = some cur)
    (hprev : PrevAgrees a.tree cur) : ∃ d, Reaches (terminateProcess walkFuel hw a cur) d := by
  obtain ⟨age, hok⟩ := h.tree
  obtain ⟨vs, t, hwalk, -⟩ := treeWalk_spec hok (h.current_live hm hcur) hprev
  have hterm : a.core.terminate walkFuel cur = some (a.core.killAll vs t).dispatch :=
    Option.bind_eq_some_iff.mpr ⟨_, hwalk, rfl⟩
  exact ⟨_, terminateProcess_core h.inv.wf hterm⟩

theorem createProcessCall_returns (h : a.core.Tidy)
    (hacc : a.q.free ≠ [] → accessible (a.pS cur).regA1) :
    ∃ d, Reaches (createProcessCall hw a cur) d := by
  have hcreate : ∃ d, a.core.create cur = some d := by
    unfold Core.create
    split
    · exact ⟨_, rfl⟩
    next tmp l hf =>
      obtain ⟨age, hok⟩ := h.tree
      have hnot : tmp ∉ a.core.liveSet := by simp [Core.mem_liveSet, hf]
      obtain ⟨t, ht⟩ := insertChild_total hok cur hnot
      exact ⟨_, Option.bind_eq_some_iff.mpr ⟨t, ht, rfl⟩⟩
  obtain ⟨d, hd⟩ := hcreate
  exact ⟨d, createProcessCall_core h.inv.wf hacc d hd⟩

theorem passupOrDie_returns (t : Fin 2) (h : a.core.Tidy)
    (hm : a.core.mode = .busy ∨ a.core.mode = .waiting) (hcur : a.currentProcess = some cur)
    (hprev : passupAction a.toShared = .terminate → PrevAgrees a.tree cur) :
    ∃ d, Reaches (passupOrDie walkFuel hw a t) d := by
  unfold passupAction at hprev
  unfold passupOrDie
  simp only [hcur, Option.bind_eq_bind, Option.bind_some] at hprev ⊢
  by_cases hs : a.pSupportStruct cur ≠ 0
  · simp only [if_pos hs]
    exact ⟨_, _, rfl, rfl⟩
  · simp only [if_neg hs] at hprev ⊢
    let b : Kernel Fifos := saveState { a with biosDataPage := hw.nested } cur
    have hb : b.core = a.core := rfl
    exact terminateProcess_returns (a := b) (hb ▸ h) (hb ▸ hm) hcur (hprev trivial)

/-- A call in kernel mode, once `saveState` has been run. -/
theorem syscall_returns (h : a.core.Tidy) (hm : a.core.mode = .busy ∨ a.core.mode = .waiting)
    (hcur : a.currentProcess = some cur)
    (hcall : a.biosDataPage.status &&& userPOn = 0 → CallAccepted (a.q.free = []) a.biosDataPage)
    (hprev : syscallAction a.toShared a.biosDataPage = .terminate → PrevAgrees a.tree cur) :
    ∃ d, Reaches (handleNucleousSystemcalls walkFuel hw a) d := by
  obtain ⟨sh, f⟩ := a
  have hcur : sh.currentProcess = some cur := hcur
  unfold syscallAction at hprev
  unfold handleNucleousSystemcalls
  dsimp only at hcall hprev ⊢
  by_cases hmode : sh.biosDataPage.status &&& userPOn ≠ 0
  · simp only [if_pos hmode] at hprev ⊢
    exact passupOrDie_returns _ h hm hcur hprev
  simp only [if_neg hmode, hcur, Option.bind_eq_bind, Option.bind_some] at hprev ⊢
  have hcall := hcall (not_not.mp hmode)
  have hp : f.Detached cur := h.inv.detached hm hcur
  let b : Kernel Fifos := saveState ⟨sh, f⟩ cur
  have hb : b.core.Tidy := h
  have hreg : b.pS cur = { sh.biosDataPage with pcEpc := sh.biosDataPage.pcEpc + 4 } := by
    simp [b, saveState, setState]
  have hA1 : (b.pS cur).regA1 = sh.biosDataPage.regA1 := by rw [hreg]; rfl
  have hA2 : (b.pS cur).regA2 = sh.biosDataPage.regA2 := by rw [hreg]; rfl
  have hA3 : (b.pS cur).regA3 = sh.biosDataPage.regA3 := by rw [hreg]; rfl
  by_cases hcreate : sh.biosDataPage.regA0 = createProcess
  · simp only [if_pos hcreate]
    refine createProcessCall_returns (a := b) hb fun hne => ?_
    rw [hA1]
    exact (hcall.create hcreate).resolve_left hne
  simp only [if_neg hcreate] at hprev ⊢
  by_cases hterm : sh.biosDataPage.regA0 = termProcess
  · simp only [if_pos hterm] at hprev ⊢
    exact terminateProcess_returns (a := b) hb hm hcur (hprev trivial)
  simp only [if_neg hterm] at hprev ⊢
  by_cases hP : sh.biosDataPage.regA0 = passerenCall
  · simp only [if_pos hP]
    exact ⟨_, passeren_core (a := b) hp (hA1 ▸ hcall.passeren hP)⟩
  simp only [if_neg hP] at hprev ⊢
  by_cases hV : sh.biosDataPage.regA0 = verhogenCall
  · simp only [if_pos hV]
    exact ⟨_, verhogen_core (a := b) hb.inv.wf (hA1 ▸ hcall.verhogen hV)⟩
  simp only [if_neg hV] at hprev ⊢
  by_cases hio : sh.biosDataPage.regA0 = ioWait
  · simp only [if_pos hio]
    cases hi : getSemIndex (b.pS cur).regA1 (b.pS cur).regA2 ((b.pS cur).regA3 ≠ 0) with
    | none =>
        refine ⟨_, b.panic, ?_, rfl⟩
        show waitForIo hw b cur = _
        simp only [waitForIo, hi]
        rfl
    | some i =>
        have hlt : i.toNat < deviceNum := by
          rw [hA1, hA2, hA3] at hi
          exact hcall.ioWait hio i hi
        exact ⟨_, waitForIo_core (a := b) hp hi hlt⟩
  simp only [if_neg hio] at hprev ⊢
  by_cases htime : sh.biosDataPage.regA0 = getTime
  · simp only [if_pos htime]
    exact ⟨_, _, rfl, rfl⟩
  simp only [if_neg htime] at hprev ⊢
  by_cases hclock : sh.biosDataPage.regA0 = clockWait
  · simp only [if_pos hclock]
    exact ⟨_, waitForClock_core (a := b) hp⟩
  simp only [if_neg hclock] at hprev ⊢
  by_cases hsupp : sh.biosDataPage.regA0 = getSupportPtr
  · simp only [if_pos hsupp]
    exact ⟨_, _, rfl, rfl⟩
  simp only [if_neg hsupp] at hprev ⊢
  exact passupOrDie_returns (a := b) _ hb hm hcur hprev

theorem handleDeviceInterrupt_returns {line i : Word} (hwf : a.q.Wf)
    (hdev : a.devReg = hw.devReg) (hi : deviceIndex hw line = some i) (hlt : i.toNat < deviceNum) :
    ∃ d, Reaches (handleDeviceInterrupt hw a line) d := by
  simp only [deviceIndex] at hi
  simp only [handleDeviceInterrupt, hdev, hi]
  generalize (if decide (line = 7) = true then
    getTermStatus (hw.devReg line (getDeviceNoFromLine (hw.bitmap line)))
    else (hw.devReg line (getDeviceNoFromLine (hw.bitmap line))).status) = status
  generalize (if decide (line = 7) = true then
    acknowledgeTermInterrupt (hw.devReg line (getDeviceNoFromLine (hw.bitmap line)))
    else acknowledgeDTPInterrupt (hw.devReg line (getDeviceNoFromLine (hw.bitmap line)))) = reg
  let a' := setDevReg a line (getDeviceNoFromLine (hw.bitmap line)) reg
  have hwf' : a'.q.Wf := hwf
  have hrel : Yields (releaseSemAndUpdateStatus a' i status) _ :=
    releaseSemAndUpdateStatus_core hwf' status hlt
  obtain ⟨b, hb, -⟩ := hrel
  exact ⟨_, _, Option.bind_eq_some_iff.mpr ⟨b, hb, rfl⟩, rfl⟩

theorem interrupt_returns (hinv : a.core.Inv) (hm : a.core.mode = .busy ∨ a.core.mode = .waiting)
    (hdev : a.devReg = hw.devReg) (hacc : InterruptAccepted a.biosDataPage hw) :
    ∃ d, Reaches (handleInterrupts hw a) d := by
  unfold handleInterrupts
  cases hl : pendingLine a.biosDataPage.cause with
  | none => exact ⟨_, resumeAfterInterrupt_core hw a⟩
  | some line =>
      dsimp only
      by_cases hplt : line = pltInt
      · simp only [if_pos hplt]
        exact ⟨_, handlePLTInterrupt_core fun p hp => hinv.detached hm hp⟩
      simp only [if_neg hplt]
      by_cases htick : line = interTimeInt
      · simp only [if_pos htick]
        obtain ⟨b, hb, -⟩ := handleIntervalTimerInterrupt_core hinv.wf
        obtain ⟨a', ha', hcore⟩ := resumeAfterInterrupt_core hw b
        exact ⟨_, a', Option.bind_eq_some_iff.mpr ⟨b, hb, ha'⟩, hcore⟩
      · simp only [if_neg htick]
        obtain ⟨i, hi⟩ := Option.isSome_iff_exists.mp (deviceIndex_isSome hl hplt htick)
        have hlt := (deviceIndex_lt hl hplt htick hi).mpr hacc
        obtain ⟨d, b, hb, -⟩ := handleDeviceInterrupt_returns hinv.wf hdev hi hlt
        obtain ⟨a', ha', hcore⟩ := resumeAfterInterrupt_core hw b
        exact ⟨_, a', Option.bind_eq_some_iff.mpr ⟨b, hb, ha'⟩, hcore⟩

theorem exception_returns (h : a.core.Tidy) (hm : a.core.mode = .busy ∨ a.core.mode = .waiting)
    (hdev : a.devReg = hw.devReg) (hbusy : causeGetExcCode a.biosDataPage.cause ≠ excInt →
      ∃ cur, a.currentProcess = some cur)
    (hacc : ExceptionAccepted (a.q.free = []) a.biosDataPage hw)
    (hprev : action a.toShared (.exception a.biosDataPage hw) = .terminate →
      ∀ p, a.currentProcess = some p → PrevAgrees a.tree p) :
    ∃ d, Reaches (handleExceptions walkFuel hw a) d := by
  obtain ⟨hcode, hint, hcall⟩ := hacc
  unfold action at hprev
  unfold handleExceptions
  dsimp only at hprev ⊢
  generalize causeGetExcCode a.biosDataPage.cause = excCode at *
  by_cases h0 : excCode = excInt
  · simp only [if_pos h0]
    exact interrupt_returns h.inv hm hdev (hint h0)
  obtain ⟨cur, hcur⟩ := hbusy h0
  have hprev := fun ht => hprev ht cur hcur
  simp only [if_neg h0] at hprev ⊢
  by_cases h1 : excCode = excSys
  · subst h1
    simp only [show ¬ (excSys = excMod ∨ excSys = excTlbl ∨ excSys = excTlbs) by decide,
      show ¬ (excSys = excAdel ∨ excSys = excAdes ∨ excSys = excIbe ∨ excSys = excDbe) by decide,
      if_false, if_true] at hprev ⊢
    exact syscall_returns h hm hcur (hcall rfl) hprev
  simp only [if_neg h1] at hprev ⊢
  by_cases h2 : excCode = excMod ∨ excCode = excTlbl ∨ excCode = excTlbs
  · simp only [if_pos h2]
    exact passupOrDie_returns _ h hm hcur hprev
  simp only [if_neg h2]
  by_cases h3 : excCode = excAdel ∨ excCode = excAdes ∨ excCode = excIbe ∨ excCode = excDbe
  · simp only [if_pos h3]
    exact passupOrDie_returns _ h hm hcur hprev
  simp only [if_neg h3]
  have h4 : excCode = excBp ∨ excCode = excRi ∨ excCode = excCpu ∨ excCode = excOv := by
    bv_omega
  simp only [if_pos h4]
  exact passupOrDie_returns _ h hm hcur hprev

theorem refill_returns (badVAddr : Word) (saved : State) (h : a.core.Tidy)
    (hm : a.core.mode = .busy ∨ a.core.mode = .waiting) (hcur : a.currentProcess = some cur)
    (hs : a.pSupportStruct cur ≠ 0)
    (hprev : action a.toShared (.refill saved badVAddr hw) = .terminate → PrevAgrees a.tree cur) :
    ∃ d, Reaches (uTLBRefillHandler walkFuel hw a badVAddr) d := by
  unfold action at hprev
  unfold uTLBRefillHandler
  simp only [hcur, guard, if_pos hs, Option.bind_eq_bind, Option.bind_some]
    at hprev ⊢
  cases hpg : getMissingPage (a.supp (a.pSupportStruct cur)) badVAddr with
  | none =>
      simp only [hpg] at hprev
      let b : Kernel Fifos := saveState { a with biosDataPage := hw.nested } cur
      have hb : b.core = a.core := rfl
      exact terminateProcess_returns (a := b) (hb ▸ h) (hb ▸ hm) hcur (hprev trivial)
  | some i => exact ⟨_, _, rfl, rfl⟩

end Lists

/-! ## Over pointers -/

section

variable {Q : Type} [QueueOps Q] {k k' : Kernel Q} {hw : Hw} {cur : PcbPtr} {fuel : Nat}

theorem waitForIo_index {i : Word} (h : waitForIo hw k cur = some k')
    (hi : getSemIndex (k.pS cur).regA1 (k.pS cur).regA2 ((k.pS cur).regA3 ≠ 0) = some i) :
    i.toNat < deviceNum := by
  simp only [waitForIo, hi] at h
  exact (guard_bind_eq_some.mp h).1

/-- With a free PCB, `CREATEPROCESS` follows `a1`. -/
theorem createProcessCall_accessible {k k' : Kernel Queues}
    (h : createProcessCall hw k cur = some k') :
    k.q.pcbFreeH = none ∨ accessible (k.pS cur).regA1 := by
  obtain ⟨⟨tmp, k₁⟩, hal, h⟩ := Option.bind_eq_some_iff.mp h
  obtain ⟨⟨r, q⟩, hring, hal⟩ := Option.bind_eq_some_iff.mp hal
  cases hH : k.q.pcbFreeH with
  | none => exact .inl rfl
  | some toReturn =>
      have hsome : r = some toReturn := by
        have hring : allocPcbRing k.q = some (r, q) := hring
        simp only [allocPcbRing, hH] at hring
        obtain ⟨L, -, hring⟩ := Option.bind_eq_some_iff.mp hring
        exact (Prod.mk.inj (Option.some.inj hring)).1.symm
      subst hsome
      obtain ⟨rfl, rfl⟩ := Prod.mk.inj (Option.some.inj hal)
      exact .inr (guard_bind_eq_some.mp h).1

/-- What a call that returns has found in its registers. -/
theorem syscall_accepted {k k' : Kernel Queues}
    (h : handleNucleousSystemcalls fuel hw k = some k')
    (hmode : k.biosDataPage.status &&& userPOn = 0) :
    CallAccepted (k.q.pcbFreeH = none) k.biosDataPage := by
  obtain ⟨sh, q⟩ := k
  unfold handleNucleousSystemcalls at h
  dsimp only at h hmode ⊢
  rw [if_neg (not_not.mpr hmode)] at h
  obtain ⟨cur, hcur, h⟩ := Option.bind_eq_some_iff.mp h
  let b : Kernel Queues := saveState ⟨sh, q⟩ cur
  have hreg : b.pS cur = { sh.biosDataPage with pcEpc := sh.biosDataPage.pcEpc + 4 } := by
    simp [b, saveState, setState]
  have hA1 : (b.pS cur).regA1 = sh.biosDataPage.regA1 := by rw [hreg]; rfl
  have hA2 : (b.pS cur).regA2 = sh.biosDataPage.regA2 := by rw [hreg]; rfl
  have hA3 : (b.pS cur).regA3 = sh.biosDataPage.regA3 := by rw [hreg]; rfl
  refine ⟨fun he => ?_, fun he => ?_, fun he => ?_, fun he i hi => ?_⟩
  · rw [if_pos he] at h
    rw [← hA1]
    exact createProcessCall_accessible (k := b) h
  · rw [if_neg (he ▸ by decide), if_neg (he ▸ by decide), if_pos he] at h
    rw [← hA1]
    exact (guard_bind_eq_some.mp h).1
  · rw [if_neg (he ▸ by decide), if_neg (he ▸ by decide), if_neg (he ▸ by decide),
      if_pos he] at h
    rw [← hA1]
    exact (guard_bind_eq_some.mp h).1
  · rw [if_neg (he ▸ by decide), if_neg (he ▸ by decide), if_neg (he ▸ by decide),
      if_neg (he ▸ by decide), if_pos he] at h
    rw [← hA1, ← hA2, ← hA3] at hi
    exact waitForIo_index (k := b) h hi

theorem interrupt_accepted (hdev : k.devReg = hw.devReg)
    (h : handleInterrupts hw k = some k') : InterruptAccepted k.biosDataPage hw := by
  intro hl
  have hplt : diskInt ≠ pltInt := by decide
  have htick : diskInt ≠ interTimeInt := by decide
  have hsome : (deviceIndex hw (BitVec.ofNat 32 diskInt)).isSome := deviceIndex_isSome hl hplt htick
  obtain ⟨i, hi⟩ := Option.isSome_iff_exists.mp hsome
  refine (deviceIndex_lt hl hplt htick hi).mp ?_ hl
  unfold handleInterrupts at h
  rw [hl] at h
  dsimp only at h
  rw [if_neg hplt, if_neg htick] at h
  obtain ⟨k₁, h, -⟩ := Option.bind_eq_some_iff.mp h
  simp only [deviceIndex] at hi
  simp only [handleDeviceInterrupt, hdev, hi] at h
  obtain ⟨k₂, h, -⟩ := Option.bind_eq_some_iff.mp h
  exact (guard_bind_eq_some.mp h).1

theorem exception_accepted {k k' : Kernel Queues} (hdev : k.devReg = hw.devReg)
    (h : handleExceptions fuel hw k = some k') :
    ExceptionAccepted (k.q.pcbFreeH = none) k.biosDataPage hw := by
  unfold handleExceptions at h
  dsimp only at h
  refine ⟨?_, fun he => ?_, fun he hmode => ?_⟩
  · by_contra hgt
    generalize causeGetExcCode k.biosDataPage.cause = excCode at h hgt
    rw [if_neg (by bv_omega), if_neg (by bv_omega), if_neg (by bv_omega), if_neg (by bv_omega),
      if_neg (by bv_omega)] at h
    cases h
  · rw [if_pos he] at h
    exact interrupt_accepted hdev h
  · rw [he] at h
    exact syscall_accepted h hmode

end

theorem Step.accepts {k k' : Kernel Queues} {e : Event} (h : Step k e k') : Accepts k e := by
  obtain ⟨fuel, h⟩ := h
  cases e with
  | store a v => exact (Option.ite_none_right_eq_some.mp h).1
  | refill saved badVAddr hw =>
      obtain ⟨hb, h⟩ := Option.ite_none_right_eq_some.mp h
      refine ⟨hb, fun p hp => ?_⟩
      obtain ⟨cur, hcur, h⟩ := Option.bind_eq_some_iff.mp h
      obtain rfl := Option.some.inj (hcur.symm.trans hp)
      exact (guard_bind_eq_some.mp h).1
  | exception saved hw =>
      obtain ⟨hb, h⟩ := Option.ite_none_right_eq_some.mp h
      exact ⟨hb, exception_accepted (k := { k with biosDataPage := saved, devReg := hw.devReg })
        rfl h⟩

/-! ## Runs -/

/-- If the event ends the current process, the back link of that process is right. -/
def Kernel.BackLinked (k : Kernel Queues) (e : Event) : Prop :=
  action k.toShared e = .terminate → ∀ p, k.currentProcess = some p → PrevAgrees k.tree p

instance (k : Kernel Queues) (e : Event) : Decidable (k.BackLinked e) :=
  inferInstanceAs (Decidable (_ → ∀ _, _))

theorem Core.Tidy.returns {k : Kernel Queues} {c : Core} {e : Event} (h : c.Tidy) (hk : Rep k c)
    (hacc : Accepts k e) (hprev : k.BackLinked e) : ∃ k', step walkFuel k e = some k' := by
  let a : Kernel Fifos := ⟨k.toShared, c.q⟩
  have hcore : a.core = c := hk.core.symm
  have htidy : a.core.Tidy := hcore ▸ h
  have hsim : KSim k a := ⟨rfl, hk.queues⟩
  suffices hret : ∃ a', step walkFuel a e = some a' by
    obtain ⟨a', ha'⟩ := hret
    obtain ⟨k', hk', -⟩ := hsim.step walkFuel e a' ha'
    exact ⟨k', hk'⟩
  cases e with
  | store s v => exact ⟨_, if_pos hacc⟩
  | refill saved badVAddr hw =>
      obtain ⟨hb, hsupp⟩ := hacc
      obtain ⟨cur, -, hcur, -⟩ := hk.exists_current hb
      have hm : a.core.mode = .busy := Cpu.mode_eq_busy.mpr hb
      let b : Kernel Fifos := { a with biosDataPage := saved }
      have hret : ∃ d, Reaches (uTLBRefillHandler walkFuel hw b badVAddr) d :=
        refill_returns badVAddr saved htidy (.inl hm) hcur (hsupp cur hcur) fun ht =>
          hprev ht cur hcur
      obtain ⟨d, a', ha', -⟩ := hret
      exact ⟨a', (if_pos hb).trans ha'⟩
  | exception saved hw =>
      obtain ⟨hb, hacc⟩ := hacc
      have hm : a.core.mode = .busy ∨ a.core.mode = .waiting := Cpu.mode_of_takesException hb
      have hfull : k.q.pcbFreeH = none ↔ c.q.free = [] := by
        rw [hk.queues.free.queue.head_eq, List.head?_eq_none_iff]
      rw [hfull] at hacc
      let b : Kernel Fifos := { a with biosDataPage := saved, devReg := hw.devReg }
      have hcur : causeGetExcCode saved.cause ≠ excInt → ∃ p, b.currentProcess = some p := by
        intro hne
        have hbusy : k.cpu.busy := (Bool.or_eq_true_iff.mp hb).resolve_right fun h =>
          hne (of_decide_eq_true (Bool.and_eq_true_iff.mp h).2)
        obtain ⟨p, -, hp, -⟩ := hk.exists_current hbusy
        exact ⟨p, hp⟩
      obtain ⟨d, a', ha', -⟩ := exception_returns (a := b) htidy hm rfl hcur hacc hprev
      exact ⟨a', (if_pos hb).trans ha'⟩

/-- In every run whose terminations find their back links right, the nucleus
comes back from an event exactly if it `Accepts` it, and then no call of
`terminate_Process_rec` is nested deeper than `walkFuel`. -/
theorem accepted_iff {k₀ k : Kernel Queues} {tr : List (Trans Queues)} (h₀ : Boot k₀)
    (h : Run k₀ tr k) (hb : ∀ x ∈ tr, x.BackLinked) {e : Event} (he : k.BackLinked e) :
    ((∃ k', Step k e k') ↔ Accepts k e) ∧
      (Accepts k e → ∃ k', step walkFuel k e = some k') := by
  obtain ⟨c, hc, htidy⟩ := Run.tidy h₀ h hb
  have hret := fun hacc => htidy.returns hc hacc he
  refine ⟨⟨?_, fun hacc => ?_⟩, hret⟩
  · rintro ⟨k', hstep⟩
    exact hstep.accepts
  · obtain ⟨k', hk'⟩ := hret hacc
    exact ⟨k', walkFuel, hk'⟩

/-- A disk interrupt whose bitmap is empty. -/
def noDisk : Event := .exception { zeroState with cause := causeIp diskInt } .zero

theorem accepts_callTerm {k : Kernel Queues} (hb : k.cpu.busy) : Accepts k callTerm := by
  refine ⟨Bool.or_eq_true_iff.mpr (.inl hb), by decide, ?_, fun _ _ => ⟨?_, ?_, ?_, ?_⟩⟩
  all_goals exact fun h => absurd h (by decide)

/-- A process with two children can end; no state takes an interrupt of no disk. -/
theorem accepted_tidyScript : ∃ k₀ tr k, Boot k₀ ∧ Run k₀ tr k ∧ k.q.readyList.length = 2 ∧
    (∃ k', step walkFuel k callTerm = some k') ∧ ¬ ∃ k', Step k noDisk k' := by
  have hany : (Script.eval walkFuel .zero .zero [callCreate, callCreate]).any (fun x =>
      x.trace.all (fun y => y.BackLinked) ∧ x.final.cpu.busy ∧
        x.final.q.readyList.length = 2 ∧ x.final.BackLinked callTerm ∧
        x.final.BackLinked noDisk) = true := by
    decide +kernel
  obtain ⟨x, hx, h⟩ := Script.exists_of_any hany
  obtain ⟨hall, hbusy, hlen, hterm, hno⟩ := of_decide_eq_true h
  obtain ⟨hboot, hrun, -⟩ := Script.run hx
  have hb : ∀ y ∈ x.trace, y.BackLinked := fun y hy =>
    of_decide_eq_true (List.all_eq_true.mp hall y hy)
  refine ⟨x.start, x.trace, x.final, hboot, hrun, hlen, ?_, ?_⟩
  · exact (accepted_iff hboot hrun hb hterm).2 (accepts_callTerm hbusy)
  · intro hstep
    obtain ⟨-, hacc⟩ := (accepted_iff hboot hrun hb hno).1.mp hstep
    exact hacc.interrupt (by decide) (by decide) (by decide)

end Pandos
