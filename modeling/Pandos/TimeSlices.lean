/-
# `Pandos.TimeSlices` — time slices, and how long a ready process waits

`scheduler` gives the process it dispatches a new time slice, whatever
`handlePLTInterrupt` has put into the local timer before, and
`handleInterrupts` gives an interrupted process back what was left of its own.
No other handler touches the timer, so that it runs on through system calls,
TLB refills and exceptions that are passed up.

A timed run has the time that has gone by before each event, as the local
timer counts it (`Timed`).  As long as a process waits in the ready queue, a
process runs, and each dispatch brings it one place further to the front.  So
with `n` others before it, it waits for at most `n + 1` time slices, whatever
calls and interrupts there are (`ready_waits`).
-/
import Pandos.Lib.Countdown
import Pandos.DeviceSemaphores
import Pandos.ReadyQueue

namespace Pandos

open Kernel Simulation

/-! ## The local timer -/

namespace Action

/-- The running process gives the processor up, or there is none. -/
def reschedules (mem : Word → Int) (current : Option PcbPtr) : Action → Bool
  | .terminate | .ioWait _ | .plt => true
  | .passeren s | .clockWait s => mem s - 1 < 0
  | .tick _ | .device _ | .spurious => current.isNone
  | .createProcess | .verhogen _ | .resume | .store _ _ | .panic | .reject => false

/-- `handleInterrupts` comes to its end, where it uses `timeLeft`. -/
def interrupts : Action → Bool
  | .tick _ | .device _ | .spurious => true
  | .createProcess | .terminate | .passeren _ | .verhogen _ | .ioWait _ | .clockWait _ | .resume
  | .plt | .store _ _ | .panic | .reject => false

/-- The local timer after an event that leaves a process running. -/
def timer (k : Shared) (timeLeft : Word) (act : Action) : Word :=
  if act.reschedules k.mem k.currentProcess then timeSlice
  else if act.interrupts then timeLeft else k.timer

theorem timer_passeren (k : Shared) (t s : Word) :
    (Action.passeren s).timer k t = if k.mem s - 1 < 0 then timeSlice else k.timer := by
  simp only [timer, reschedules, interrupts, decide_eq_true_eq, Bool.false_eq_true, if_false]

theorem timer_clockWait (k : Shared) (t s : Word) :
    (Action.clockWait s).timer k t = if k.mem s - 1 < 0 then timeSlice else k.timer :=
  timer_passeren k t s

end Action

section

variable {Q : Type} [QueueOps Q] {k k' d : Kernel Q} {hw : Hw} {fuel : Nat} {cur : PcbPtr}

theorem scheduler_timer (h : scheduler hw k = some k') (hb : k'.cpu.busy) :
    k'.timer = timeSlice := by
  obtain ⟨⟨p, q⟩, -, h⟩ := Option.bind_eq_some_iff.mp h
  cases p with
  | some p =>
      obtain rfl := Option.some.inj h
      rfl
  | none =>
      dsimp only at h
      split at h
      · obtain rfl := Option.some.inj h
        exact nomatch hb
      · split at h
        · obtain rfl := Option.some.inj h
          exact nomatch hb
        · obtain rfl := Option.some.inj h
          exact nomatch hb

theorem terminateProcess_timer (h : terminateProcess fuel hw k cur = some k') (hb : k'.cpu.busy) :
    k'.timer = timeSlice := by
  obtain ⟨k₁, -, h⟩ := Option.bind_eq_some_iff.mp h
  exact scheduler_timer h hb

theorem createProcessCall_timer (h : createProcessCall hw k cur = some k') :
    k'.timer = k.timer := by
  obtain ⟨⟨tmp, k₁⟩, hal, h⟩ := Option.bind_eq_some_iff.mp h
  obtain ⟨⟨r, q⟩, -, hal⟩ := Option.bind_eq_some_iff.mp hal
  cases r with
  | none =>
      obtain ⟨rfl, rfl⟩ := Prod.mk.inj (Option.some.inj hal)
      obtain rfl := Option.some.inj h
      rfl
  | some tmp =>
      obtain ⟨rfl, rfl⟩ := Prod.mk.inj (Option.some.inj hal)
      obtain ⟨-, h⟩ := guard_bind_eq_some.mp h
      obtain ⟨k₂, hins, h⟩ := Option.bind_eq_some_iff.mp h
      obtain ⟨t, -, h⟩ := Option.bind_eq_some_iff.mp h
      obtain ⟨qr, -, ⟨⟩⟩ := Option.bind_eq_some_iff.mp hins
      obtain rfl := Option.some.inj h
      rfl

theorem verhogen_timer (h : verhogen k cur = some k') : k'.timer = k.timer := by
  obtain ⟨-, h⟩ := guard_bind_eq_some.mp h
  obtain ⟨⟨tmp, q⟩, -, h⟩ := Option.bind_eq_some_iff.mp h
  obtain ⟨k₁, hwake, h⟩ := Option.bind_eq_some_iff.mp h
  obtain rfl := Option.some.inj h
  cases tmp with
  | none =>
      obtain rfl := Option.some.inj hwake
      rfl
  | some tmp =>
      obtain ⟨qr, -, ⟨⟩⟩ := Option.bind_eq_some_iff.mp hwake
      rfl

theorem blockCurrentProcessAt_timer {sem : Word} (h : ((blockCurrentProcessAt hw k sem cur).bind
    fun k => scheduler hw k) = some k') (hb : k'.cpu.busy) : k'.timer = timeSlice := by
  obtain ⟨k₁, -, h⟩ := Option.bind_eq_some_iff.mp h
  exact scheduler_timer h hb

/-- A call that takes a unit if there is one. -/
theorem passeren_timer (h : passeren hw k cur = some k') (hb : k'.cpu.busy) :
    k'.timer = (Action.passeren (k.pS cur).regA1).timer k.toShared hw.timer := by
  obtain ⟨-, h⟩ := guard_bind_eq_some.mp h
  simp only [setMem, store_self] at h
  rw [Action.timer_passeren]
  split at h
  next hneg =>
    rw [if_pos hneg]
    exact blockCurrentProcessAt_timer h hb
  next hneg =>
    obtain rfl := Option.some.inj h
    exact (if_neg hneg).symm

theorem waitForClock_timer (h : waitForClock hw k cur = some k') (hb : k'.cpu.busy) :
    k'.timer = (Action.clockWait k.layout.clockSemaphore).timer k.toShared hw.timer := by
  unfold waitForClock at h
  simp only [setMem, store_self] at h
  rw [Action.timer_clockWait]
  split at h
  next hneg =>
    rw [if_pos hneg]
    exact blockCurrentProcessAt_timer h hb
  next hneg =>
    obtain rfl := Option.some.inj h
    exact (if_neg hneg).symm

theorem waitForIo_timer (h : waitForIo hw k cur = some k') (hb : k'.cpu.busy) :
    (getSemIndex (k.pS cur).regA1 (k.pS cur).regA2 ((k.pS cur).regA3 ≠ 0)).isSome ∧
      k'.timer = timeSlice := by
  unfold waitForIo at h
  dsimp only at h
  split at h
  · obtain rfl := Option.some.inj h
    exact nomatch hb
  next i hi =>
    obtain ⟨-, h⟩ := guard_bind_eq_some.mp h
    exact ⟨by rw [hi]; rfl, blockCurrentProcessAt_timer h hb⟩

theorem passupOrDie_timer {t : Fin 2} (h : passupOrDie fuel hw k t = some k') (hb : k'.cpu.busy) :
    k'.timer = (passupAction k.toShared).timer k.toShared hw.timer := by
  obtain ⟨cur, hcur, h⟩ := Option.bind_eq_some_iff.mp h
  unfold passupAction
  rw [hcur]
  dsimp only at h ⊢
  split at h
  next hne =>
    obtain rfl := Option.some.inj h
    rw [if_pos hne]
    rfl
  next hne =>
    rw [if_neg hne]
    exact terminateProcess_timer h hb

theorem syscall_timer (h : handleNucleousSystemcalls fuel hw k = some k') (hb : k'.cpu.busy) :
    k'.timer = (syscallAction k.toShared k.biosDataPage).timer k.toShared hw.timer := by
  unfold syscallAction
  by_cases hm : k.biosDataPage.status &&& userPOn = 0
  · obtain ⟨cur, hcur, hserved⟩ := handleNucleousSystemcalls_served hm h
    have hsave : (saveState k cur).pS cur =
        { k.biosDataPage with pcEpc := k.biosDataPage.pcEpc + 4 } := by
      rw [saveState_pS, Function.update_self]
    rw [if_neg (not_not.mpr hm)]
    generalize k.biosDataPage.regA0 = n at hserved ⊢
    cases hserved with
    | create h =>
        have ht := createProcessCall_timer h
        exact ht
    | terminate h => exact terminateProcess_timer h hb
    | passeren h =>
        have ht := passeren_timer h hb
        rw [hsave] at ht
        exact ht
    | verhogen h =>
        have ht := verhogen_timer h
        exact ht
    | ioWait h =>
        obtain ⟨hi, ht⟩ := waitForIo_timer h hb
        rw [hsave] at hi
        obtain ⟨i, hi⟩ := Option.isSome_iff_exists.mp hi
        have hi : getSemIndex k.biosDataPage.regA1 k.biosDataPage.regA2
            (k.biosDataPage.regA3 ≠ 0) = some i := hi
        rw [hi]
        exact ht
    | getTime h =>
        subst h
        rfl
    | clockWait h =>
        have ht := waitForClock_timer h hb
        exact ht
    | getSupportPtr h =>
        subst h
        rfl
    | passup hn h =>
        -- a number the nucleus does not serve: none of its `if`s is taken
        simp only [List.mem_cons, List.not_mem_nil, or_false, not_or] at hn
        obtain ⟨h1, h2, h3, h4, h5, h6, h7, h8⟩ := hn
        rw [if_neg h1, if_neg h2, if_neg h3, if_neg h4, if_neg h5, if_neg h6, if_neg h7, if_neg h8]
        have ht := passupOrDie_timer h hb
        exact ht
  · unfold handleNucleousSystemcalls at h
    rw [if_pos hm] at h ⊢
    exact passupOrDie_timer h hb

/-- The end of an interrupt, whichever it was. -/
theorem resumeAfterInterrupt_timer (hcur : d.currentProcess = k.currentProcess)
    (h : resumeAfterInterrupt hw d = some k') (hb : k'.cpu.busy) :
    k'.timer = Action.spurious.timer k.toShared hw.timer := by
  unfold resumeAfterInterrupt at h
  unfold Action.timer Action.reschedules
  rw [← hcur]
  cases hc : d.currentProcess with
  | some cur =>
      rw [hc] at h
      obtain rfl := Option.some.inj h
      rfl
  | none =>
      rw [hc] at h
      exact scheduler_timer h hb

theorem interrupt_timer (hdev : k.devReg = hw.devReg) (h : handleInterrupts hw k = some k')
    (hb : k'.cpu.busy) :
    k'.timer = (interruptAction k.toShared k.biosDataPage hw).timer k.toShared hw.timer := by
  unfold handleInterrupts at h
  unfold interruptAction
  cases hl : pendingLine k.biosDataPage.cause with
  | none =>
      simp only [hl] at h
      exact resumeAfterInterrupt_timer rfl h hb
  | some line =>
      simp only [hl] at h
      dsimp only
      by_cases hplt : line = pltInt
      · rw [if_pos hplt] at h ⊢
        cases hcur : k.currentProcess with
        | some cur =>
            simp only [handlePLTInterrupt, setTimer, hcur] at h
            obtain ⟨k₁, -, h⟩ := Option.bind_eq_some_iff.mp h
            exact scheduler_timer h hb
        | none =>
            simp only [handlePLTInterrupt, setTimer, hcur] at h
            obtain rfl := Option.some.inj h
            cases hb
      rw [if_neg hplt] at h ⊢
      by_cases htick : line = interTimeInt
      · rw [if_pos htick] at h ⊢
        obtain ⟨d, hd, h⟩ := Option.bind_eq_some_iff.mp h
        have hu := handleIntervalTimerInterrupt_untouched hd
        exact resumeAfterInterrupt_timer hu.currentProcess h hb
      rw [if_neg htick] at h ⊢
      obtain ⟨i, hi⟩ := Option.isSome_iff_exists.mp (deviceIndex_isSome hl hplt htick)
      obtain ⟨d, hd, h⟩ := Option.bind_eq_some_iff.mp h
      rw [handleDeviceInterrupt_eq hdev hi] at hd
      obtain ⟨d₀, hd₀, hd⟩ := Option.bind_eq_some_iff.mp hd
      obtain rfl := Option.some.inj hd
      have hcur : d₀.currentProcess = k.currentProcess := by
        rcases releaseSemAndUpdateStatus_untouched hd₀ with ⟨-, hu⟩ | ⟨-, tmp, q, -, hu⟩
        · exact hu.currentProcess
        · rw [hu.currentProcess]
          cases tmp <;> rfl
      rw [hi]
      exact resumeAfterInterrupt_timer (d := { d₀ with startT := hw.timerEnd }) hcur h hb

theorem exception_timer {saved : State}
    (h : handleExceptions fuel hw (k.entered saved hw) = some k') (hb : k'.cpu.busy) :
    k'.timer = (action k.toShared (.exception saved hw)).timer k.toShared hw.timer := by
  unfold handleExceptions at h
  simp only [action]
  by_cases hint : causeGetExcCode saved.cause = excInt
  · rw [if_pos hint] at h ⊢
    exact interrupt_timer rfl h hb
  rw [if_neg hint] at h ⊢
  by_cases hsys : causeGetExcCode saved.cause = excSys
  · rw [if_pos hsys]
    rw [hsys] at h
    exact syscall_timer h hb
  rw [if_neg hsys]
  simp only [if_neg hsys] at h
  have hpass : ∀ {t}, passupOrDie fuel hw (k.entered saved hw) t = some k' →
      k'.timer = (passupAction k.toShared).timer k.toShared hw.timer := by
    intro t h
    have ht := passupOrDie_timer h hb
    exact ht
  split at h
  · exact hpass h
  split at h
  · exact hpass h
  split at h
  · exact hpass h
  · cases h

theorem refill_timer {saved : State} {badVAddr : Word}
    (h : uTLBRefillHandler fuel hw { k with biosDataPage := saved } badVAddr = some k')
    (hb : k'.cpu.busy) :
    k'.timer = (action k.toShared (.refill saved badVAddr hw)).timer k.toShared hw.timer := by
  obtain ⟨cur, hcur, h⟩ := Option.bind_eq_some_iff.mp h
  obtain ⟨-, h⟩ := guard_bind_eq_some.mp h
  have hcur : k.currentProcess = some cur := hcur
  simp only [action, hcur]
  cases hpg : getMissingPage (k.supp (k.pSupportStruct cur)) badVAddr with
  | none =>
      simp only [hpg] at h
      exact terminateProcess_timer h hb
  | some i =>
      simp only [hpg] at h
      obtain rfl := Option.some.inj h
      rfl

end

/-! ## Dispatches -/

namespace Core

variable {c c' d : Core} {act : Action} {fuel : Nat} {cur : PcbPtr}

theorem dispatch_busy (h : c.dispatch.mode = .busy) :
    ∃ p ∈ c.q.ready, c.dispatch.running = some p := by
  rw [dispatch_running]
  unfold dispatch at h
  split at h
  next p l hl => exact ⟨p, by rw [hl]; exact List.mem_cons_self, by rw [hl]; rfl⟩
  next =>
    split at h
    · exact nomatch h
    · split at h <;> exact nomatch h

/-- The process that calls goes on. -/
theorem run_dispatched (hinv : c.Inv) (hm : c.mode = .busy ∨ c.mode = .waiting)
    (hcur : c.current = some cur) (hplt : act ≠ .plt)
    (hr : act.reschedules c.mem c.current = false) :
    (c.dispatched act (d.run cur)).isSome = act.reschedules c.mem c.current := by
  have hsame : (d.run cur).running = c.running := by
    rw [hinv.running_eq hm, hcur]
    rfl
  rw [hr, dispatched, if_neg (not_or.mpr ⟨hplt, not_not.mpr hsame⟩), Option.isSome_none]

/-- Another process is dispatched, or the same after a time slice. -/
theorem dispatch_dispatched (hinv : c.Inv) (hm : c.mode = .busy ∨ c.mode = .waiting)
    (hready : act = .plt ∨ ∀ p ∈ d.q.ready, c.current ≠ some p)
    (hr : act.reschedules c.mem c.current = true) (hb : d.dispatch.mode = .busy) :
    (c.dispatched act d.dispatch).isSome = act.reschedules c.mem c.current := by
  obtain ⟨p, hp, hrun⟩ := dispatch_busy hb
  have hcond : act = .plt ∨ d.dispatch.running ≠ c.running := by
    refine hready.imp_right fun hne heq => hne p hp ?_
    rw [← hinv.running_eq hm, ← heq, hrun]
  rw [hr, dispatched, if_pos hcond, hrun, Option.isSome_some]

theorem block_dispatched (hinv : c.Inv) (hm : c.mode = .busy ∨ c.mode = .waiting) {s : Word}
    (hready : d.q.ready = c.q.ready) (hr : act.reschedules c.mem c.current = true)
    (hb : (d.block s cur).mode = .busy) :
    (c.dispatched act (d.block s cur)).isSome = act.reschedules c.mem c.current := by
  refine dispatch_dispatched hinv hm (.inr fun p hp hcur => ?_) hr hb
  have hp : p ∈ d.q.ready := hp
  rw [hready] at hp
  exact (hinv.detached hm hcur).2.1 hp

theorem back_dispatched (hinv : c.Inv) (hm : c.mode = .busy ∨ c.mode = .waiting)
    (hplt : act ≠ .plt) (hcur : d.current = c.current)
    (hr : act.reschedules c.mem c.current = c.current.isNone) (hb : d.back.mode = .busy) :
    (c.dispatched act d.back).isSome = act.reschedules c.mem c.current := by
  unfold back at hb ⊢
  rw [hcur] at hb ⊢
  cases hc : c.current with
  | some p =>
      have hrun := run_dispatched (d := d) hinv hm hc hplt (by rw [hr, hc]; rfl)
      rwa [hc] at hrun
  | none =>
      rw [hc] at hb
      have hrun := dispatch_dispatched (d := d) hinv hm (.inr fun p _ => by rw [hc]; nofun)
        (by rw [hr, hc]; rfl) hb
      rwa [hc] at hrun

/-- A process is dispatched exactly where the running one gives way. -/
theorem next_dispatched (hinv : c.Inv) (hnext : c.next fuel act = some c')
    (hb : c'.mode = .busy) :
    (c.dispatched act c').isSome = act.reschedules c.mem c.current := by
  obtain ⟨hm, hout⟩ := next_outcome hnext
  cases hout with
  | full hcur _ | created hcur _ _ | resume hcur | up hcur _ _ | upWakes hcur _ _ =>
      exact run_dispatched hinv hm hcur (by rintro ⟨⟩) rfl
  | down hcur _ hle | clock hcur _ hle =>
      exact run_dispatched hinv hm hcur (by rintro ⟨⟩) (decide_eq_false (not_lt.mpr hle))
  | downBlocks _ _ hneg => exact block_dispatched hinv hm rfl (decide_eq_true hneg) hb
  | clockBlocks _ _ hneg => exact block_dispatched hinv hm rfl (decide_eq_true hneg) hb
  | ioWait _ _ => exact block_dispatched hinv hm rfl rfl hb
  | @terminated cur vs t _ _ =>
      refine dispatch_dispatched hinv hm (.inr fun p hp hcur => ?_) rfl hb
      have hready : (c.killAll vs t).q.ready = c.q.ready.filter fun x => !decide (x ∈ vs) :=
        killAll_ready vs (c := { c with tree := t }) hinv.wf
      rw [hready] at hp
      exact (hinv.detached hm hcur).2.1 (List.mem_of_mem_filter hp)
  | preempt _ => exact dispatch_dispatched hinv hm (.inl rfl) rfl hb
  | preemptNobody _ | panic => exact nomatch hb
  | @tick s _ =>
      exact back_dispatched hinv hm (by rintro ⟨⟩) (drain_current hinv.wf s).1 rfl hb
  | @device s _ => exact back_dispatched hinv hm (by rintro ⟨⟩) (release_current c s) rfl hb
  | spurious => exact back_dispatched hinv hm (by rintro ⟨⟩) rfl rfl hb
  | @store s v =>
      have hsame : ¬ (Action.store s v = Action.plt ∨ c.running ≠ c.running) := by simp
      exact congrArg Option.isSome (if_neg hsame)

/-- The processor does not rest while somebody is ready. -/
theorem next_works (hinv : c.Inv) (hnext : c.next fuel act = some c') (hb : c.mode = .busy)
    (hready : c'.q.ready ≠ []) : c'.mode = .busy ∨ c'.mode = .panicked ∧ act = .panic := by
  obtain ⟨-, hout⟩ := next_outcome hnext
  by_contra hrest
  obtain ⟨hmode, hpanic⟩ := not_or.mp hrest
  obtain ⟨p, hcur, -⟩ := hinv.busy hb
  have hact : act ≠ .panic := by
    rintro rfl
    cases hout
    exact hpanic ⟨rfl, rfl⟩
  have hstore : ∀ s v, act ≠ .store s v := by
    rintro s v rfl
    cases hout
    exact hmode hb
  obtain ⟨d, rfl⟩ := hout.dispatched hmode hact (fun _ => by rw [hcur]; nofun) hstore
  rw [dispatch_ready] at hready
  cases hd : d.q.ready with
  | nil => exact hready (by rw [hd]; rfl)
  | cons q l =>
      refine hmode ?_
      unfold dispatch
      rw [hd]
      rfl

end Core

/-! ## Timed runs -/

namespace Trans

variable (x : Trans Queues) (u : Nat)

/-- Whether the nucleus sets the local timer. -/
def setsTimer : Bool :=
  x.action.reschedules x.before.mem x.before.currentProcess || x.action.interrupts

/-- What `handleInterrupts` has read in the local timer, where it uses it. -/
def timeLeft : Option Word :=
  match x.event with
  | .exception _ hw => if x.action.interrupts then some hw.timer else none
  | .refill _ _ _ | .store _ _ => none

/-- The time up to the event, of which the local timer counts `u`. -/
def period : Countdown.Period where
  elapsed := u
  reading := x.timeLeft.map BitVec.toNat
  load := if x.setsTimer then some x.after.timer.toNat else none

end Trans

def periods (tr : List (Trans Queues × Nat)) : List Countdown.Period :=
  tr.map fun x => x.1.period x.2

/-- A run of the nucleus beside the local timer.  It starts with `left` in the
timer, and each event comes before the timer has run out, or as it does. -/
inductive Timed (k₀ : Kernel Queues) (left : Nat) :
    List (Trans Queues × Nat) → Kernel Queues → Prop where
  | nil : Timed k₀ left [] k₀
  | snoc {tr k e k' u} : Timed k₀ left tr k → Step k e k' →
      (Trans.period ⟨k, e, k'⟩ u).Fits (Countdown.rest left (periods tr)) →
      Timed k₀ left (tr ++ [(⟨k, e, k'⟩, u)]) k'

/-- The dispatches in a stretch of a run. -/
def slices (tr : List (Trans Queues × Nat)) : Nat := tr.countP fun x => x.1.dispatched.isSome

section

variable {k₀ k k' : Kernel Queues} {tr : List (Trans Queues × Nat)} {e : Event} {p : PcbPtr}
  {left u : Nat}

theorem periods_concat (tr : List (Trans Queues × Nat)) (x : Trans Queues × Nat) :
    periods (tr ++ [x]) = periods tr ++ [x.1.period x.2] := by
  simp [periods]

theorem total_periods (tr : List (Trans Queues × Nat)) :
    Countdown.total (periods tr) = (tr.map Prod.snd).sum := by
  induction tr with
  | nil => rfl
  | cons x tr ih =>
      rw [List.map_cons, List.sum_cons, ← ih]
      rfl

theorem Timed.run (h : Timed k₀ left tr k) : Run k₀ (tr.map Prod.fst) k := by
  induction h with
  | nil => exact .nil
  | snoc _ hs _ ih =>
      rw [List.map_append]
      exact ih.snoc hs

theorem Timed.fits (h : Timed k₀ left tr k) : Countdown.Fits left (periods tr) := by
  induction h with
  | nil => trivial
  | snoc _ _ hfit ih =>
      rw [periods_concat, Countdown.fits_concat]
      exact ⟨ih, hfit⟩

theorem Run.timed {xs : List (Trans Queues)} (h : Run k₀ xs k) :
    ∀ {tr : List (Trans Queues × Nat)}, tr.map Prod.fst = xs →
      Countdown.Fits left (periods tr) → Timed k₀ left tr k := by
  induction h with
  | nil =>
      intro tr htr _
      rw [List.map_eq_nil_iff.mp htr]
      exact .nil
  | snoc _ hs ih =>
      intro tr htr hfit
      obtain ⟨ys, zs, rfl, hys, hzs⟩ := List.map_eq_append_iff.mp htr
      obtain ⟨⟨x, u⟩, rfl, hx⟩ := List.map_eq_singleton_iff.mp hzs
      obtain rfl : x = _ := hx
      rw [periods_concat, Countdown.fits_concat] at hfit
      exact .snoc (ih hys hfit.1) hs hfit.2

theorem step_timer (hs : Step k e k') (hb : k'.cpu.busy) : ∃ t,
    k'.timer = (action k.toShared e).timer k.toShared t ∧
      ∀ saved hw, e = .exception saved hw → t = hw.timer := by
  obtain ⟨fuel, hs⟩ := hs
  cases e with
  | store a v =>
      obtain ⟨-, hs⟩ := Option.ite_none_right_eq_some.mp hs
      obtain rfl := Option.some.inj hs
      exact ⟨0, rfl, nofun⟩
  | refill saved badVAddr hw =>
      obtain ⟨-, hs⟩ := Option.ite_none_right_eq_some.mp hs
      exact ⟨hw.timer, refill_timer hs hb, nofun⟩
  | exception saved hw =>
      obtain ⟨-, hs⟩ := Option.ite_none_right_eq_some.mp hs
      refine ⟨hw.timer, exception_timer hs hb, ?_⟩
      rintro _ _ ⟨⟩
      rfl

/-- Only an exception is an interrupt. -/
theorem exists_of_interrupts (k : Shared) (h : (action k e).interrupts = true) :
    ∃ saved hw, e = .exception saved hw := by
  cases e with
  | exception saved hw => exact ⟨saved, hw, rfl⟩
  | store a v => cases h
  | refill saved badVAddr hw =>
      simp only [action] at h
      split at h
      · cases h
      · split at h <;> cases h

/-- Without a dispatch nothing but what was left is put into the timer. -/
theorem fresh_eq_false (hs : Step k e k') (hb : k'.cpu.busy)
    (hr : (action k.toShared e).reschedules k.mem k.currentProcess = false) :
    (Trans.period ⟨k, e, k'⟩ u).fresh = false := by
  obtain ⟨t, ht, hexc⟩ := step_timer hs hb
  have hsets : Trans.setsTimer ⟨k, e, k'⟩ = (action k.toShared e).interrupts := by
    show ((action k.toShared e).reschedules k.mem k.currentProcess || _) = _
    rw [hr, Bool.false_or]
    rfl
  cases hint : (action k.toShared e).interrupts with
  | false =>
      rw [hint] at hsets
      simp [Countdown.Period.fresh, Trans.period, hsets]
  | true =>
      rw [hint] at hsets
      obtain ⟨saved, hw, rfl⟩ := exists_of_interrupts k.toShared hint
      have hleft : Trans.timeLeft ⟨k, .exception saved hw, k'⟩ = some hw.timer := if_pos hint
      have htimer : k'.timer = hw.timer := by
        rw [ht, hexc saved hw rfl, Action.timer, hr, hint]
        rfl
      simp [Countdown.Period.fresh, Trans.period, hsets, hleft, htimer]

/-- Where a process runs after an event, it has a new time slice, or it has run before. -/
theorem Reachable.period (hk : Reachable k) (hs : Step k e k') (hb : k'.cpu.busy) :
    (Trans.dispatched ⟨k, e, k'⟩).isSome ∧
        (Trans.period ⟨k, e, k'⟩ u).load = some timeSlice.toNat ∨
      k.cpu.busy ∧ (Trans.period ⟨k, e, k'⟩ u).fresh = false := by
  obtain ⟨c, h⟩ := hk.rep
  obtain ⟨fuel, d, hnext, hd⟩ := h.step hs
  have hdis : (Trans.dispatched ⟨k, e, k'⟩) = c.dispatched (action k.toShared e) d := by
    rw [Core.dispatched, ← h.running, ← hd.running]
    rfl
  have hiff := Core.next_dispatched h.inv hnext (hd.mode_busy.mpr hb)
  rw [← hdis, h.mem, h.current] at hiff
  cases hr : (action k.toShared e).reschedules k.mem k.currentProcess with
  | true =>
      obtain ⟨t, ht, -⟩ := step_timer hs hb
      have hsets : Trans.setsTimer ⟨k, e, k'⟩ = true := by
        show ((action k.toShared e).reschedules k.mem k.currentProcess || _) = true
        rw [hr, Bool.true_or]
      have htimer : k'.timer = timeSlice := by
        rw [ht, Action.timer, hr]
        rfl
      refine .inl ⟨hiff.trans hr, ?_⟩
      simp [Trans.period, hsets, htimer]
  | false =>
      -- nobody has been dispatched, so whoever runs now has run before
      refine .inr ⟨?_, fresh_eq_false hs hb hr⟩
      obtain ⟨q, -, hq, -⟩ := hd.exists_current hb
      have hrun : k'.running = some q := (if_pos hb).trans hq
      rw [hr, Trans.dispatched] at hiff
      by_contra hidle
      have hnone : k.running = none := if_neg hidle
      simp [hrun, hnone] at hiff

theorem fresh_of_panic (h : action k.toShared e = .panic) :
    (Trans.period ⟨k, e, k'⟩ u).fresh = false := by
  have hsets : Trans.setsTimer ⟨k, e, k'⟩ = false := by
    simp only [Trans.setsTimer, Trans.action, h, Action.reschedules, Action.interrupts,
      Bool.or_false]
  simp [Countdown.Period.fresh, Trans.period, hsets]

theorem Boot.timer (h : Boot k) (hb : k.cpu.busy) : k.timer = timeSlice := by
  obtain ⟨m, hw, h⟩ := h
  unfold main at h
  obtain ⟨k₁, -, h⟩ := Option.bind_eq_some_iff.mp h
  exact scheduler_timer h hb

/-- Who runs has at most one time slice left. -/
theorem Timed.left_le (h₀ : Boot k₀) (h : Timed k₀ k₀.timer.toNat tr k) (hb : k.cpu.busy) :
    Countdown.rest k₀.timer.toNat (periods tr) ≤ timeSlice.toNat := by
  induction h with
  | nil => exact (congrArg BitVec.toNat (h₀.timer hb)).le
  | @snoc tr k e k' u h hs hfit ih =>
      have hk : Reachable k := ⟨k₀, _, h₀, h.run⟩
      rw [periods_concat, Countdown.rest_concat]
      rcases hk.period hs hb with ⟨-, hload⟩ | ⟨hbusy, hf⟩
      · rw [Countdown.Period.rest, hload, Option.getD_some]
      · rw [hfit.rest_eq hf]
        exact (Nat.sub_le _ _).trans (ih hbusy)

/-- As long as processes run, each new slice comes with a dispatch. -/
theorem Timed.dispatched_of_fresh (h₀ : Reachable k₀) (h : Timed k₀ left tr k)
    (hwork : ∀ x ∈ tr, x.1.after.cpu.busy ∨ x.1.action = .panic) :
    ∀ x ∈ tr, (x.1.period x.2).fresh = true →
      x.1.dispatched.isSome ∧ (x.1.period x.2).load = some timeSlice.toNat := by
  induction h with
  | nil => simp
  | @snoc tr k e k' u h hs _ ih =>
      intro x hx hf
      rcases List.mem_append.mp hx with hx | hx
      · exact ih (fun y hy => hwork y (List.mem_append_left _ hy)) x hx hf
      · have hlast : k'.cpu.busy ∨ action k.toShared e = .panic :=
          hwork (⟨k, e, k'⟩, u) (List.mem_append_right _ (List.mem_singleton_self _))
        obtain rfl := List.mem_singleton.mp hx
        have hf : (Trans.period ⟨k, e, k'⟩ u).fresh = true := hf
        rcases hlast with hb | hpanic
        · refine ((h₀.run h.run).period hs hb).resolve_right fun hold => ?_
          rw [hold.2] at hf
          exact nomatch hf
        · rw [fresh_of_panic hpanic] at hf
          exact nomatch hf

/-- The time that goes by while processes run. -/
theorem Timed.total_le (h₀ : Reachable k₀) (h : Timed k₀ left tr k)
    (hwork : ∀ x ∈ tr, x.1.after.cpu.busy ∨ x.1.action = .panic) :
    Countdown.total (periods tr) + Countdown.rest left (periods tr) ≤
      left + timeSlice.toNat * slices tr := by
  have hfresh := h.dispatched_of_fresh h₀ hwork
  have hcount : (periods tr).countP Countdown.Period.fresh ≤ slices tr := by
    rw [periods, List.countP_map]
    exact List.countP_mono_left fun x hx hf => (hfresh x hx hf).1
  have hload : ∀ q ∈ periods tr, q.fresh = true → ∀ v ∈ q.load, v ≤ timeSlice.toNat := by
    intro q hq hf
    obtain ⟨x, hx, rfl⟩ := List.mem_map.mp hq
    rw [(hfresh x hx hf).2]
    rintro v ⟨⟩
    exact le_rfl
  have htotal := Countdown.total_add_rest_le h.fits hload
  exact htotal.trans (Nat.add_le_add_left (Nat.mul_le_mul_left _ hcount) _)

/-- One event, while `p` is ready. -/
theorem Reachable.ready_step (hk : Reachable k) (hs : Step k e k') (hp : p ∈ k.readyList)
    (hx : Trans.dispatched ⟨k, e, k'⟩ ≠ some p ∧ ¬ Trans.Ends ⟨k, e, k'⟩ p) :
    p ∈ k'.readyList ∧ k'.readyList.idxOf p +
        (if (Trans.dispatched ⟨k, e, k'⟩).isSome then 1 else 0) ≤ k.readyList.idxOf p ∧
      k.cpu.busy ∧ (k'.cpu.busy ∨ k'.cpu = .panicked ∧ action k.toShared e = .panic) := by
  obtain ⟨t, ht⟩ := hk.turn hs
  have hserved : t.served k.readyList ≠ some p := by
    rw [← ht.served]
    exact hx.1
  obtain ⟨hmem, hidx⟩ := RoundRobin.Turn.idxOf_rest hp (ht.leaves_eq hx.2 hp) hserved
  have hrest : k'.readyList = t.rest k.readyList := ht.rest
  rw [← hrest] at hmem hidx
  rw [← ht.served] at hidx
  obtain ⟨c, h, hpark⟩ := hk.parked
  obtain ⟨fuel, d, hnext, hd⟩ := h.step hs
  -- a processor that waits has nobody ready
  have hb : c.mode = .busy := by
    refine (Core.next_outcome hnext).1.resolve_right fun hwait => ?_
    rw [h.readyList, hpark hwait] at hp
    exact nomatch hp
  have hready : d.q.ready ≠ [] := by
    rw [← hd.readyList]
    exact List.ne_nil_of_mem hmem
  refine ⟨hmem, hidx, h.mode_busy.mp hb, ?_⟩
  refine (Core.next_works h.inv hnext hb hready).imp hd.mode_busy.mp fun hpanic => ?_
  exact ⟨Cpu.mode_eq_panicked.mp (hd.mode.symm.trans hpanic.1), hpanic.2⟩

theorem Timed.eq_of_nil (h : Timed k₀ left [] k) : k = k₀ := by
  generalize htr : [] = tr at h
  cases h with
  | nil => rfl
  | snoc => simp at htr

/-- A stretch of a run in which `p` is ready all along. -/
theorem Timed.ready (h₀ : Reachable k₀) (h : Timed k₀ left tr k) (hp : p ∈ k₀.readyList)
    (hwait : ∀ x ∈ tr, x.1.dispatched ≠ some p ∧ ¬ x.1.Ends p) :
    p ∈ k.readyList ∧ slices tr + k.readyList.idxOf p ≤ k₀.readyList.idxOf p ∧
      (tr = [] ∨ k₀.cpu.busy) ∧
      ∀ x ∈ tr, x.1.after.cpu.busy ∨ x.1.after.cpu = .panicked ∧ x.1.action = .panic := by
  induction h with
  | nil => exact ⟨hp, by simp [slices], .inl rfl, by simp⟩
  | @snoc tr k e k' u h hs _ ih =>
      obtain ⟨hmem, hidx, hstart, hwork⟩ := ih fun x hx => hwait x (List.mem_append_left _ hx)
      obtain ⟨hmem', hidx', hb, hwork'⟩ := (h₀.run h.run).ready_step hs hmem
        (hwait (⟨k, e, k'⟩, u) (List.mem_append_right _ (List.mem_singleton_self _)))
      have hslices : slices (tr ++ [(⟨k, e, k'⟩, u)]) =
          slices tr + if (Trans.dispatched ⟨k, e, k'⟩).isSome then 1 else 0 := by
        rw [slices, List.countP_append, List.countP_singleton]
        rfl
      refine ⟨hmem', ?_, .inr ?_, fun x hx => ?_⟩
      · omega
      · rcases hstart with rfl | hstart
        · exact h.eq_of_nil ▸ hb
        · exact hstart
      · rcases List.mem_append.mp hx with hx | hx
        · exact hwork x hx
        · obtain rfl := List.mem_singleton.mp hx
          exact hwork'

end

/-- While a process waits in the ready queue the processor works, unless a
call makes the nucleus panic; each dispatch brings the process one place
forward; and with `n` processes before it, it waits for at most `n + 1` time
slices. -/
theorem ready_waits {k₀ k₁ k₂ : Kernel Queues} {tr₁ tr₂ : List (Trans Queues × Nat)} {p : PcbPtr}
    (h₀ : Boot k₀) (h₁ : Timed k₀ k₀.timer.toNat tr₁ k₁)
    (h₂ : Timed k₁ (Countdown.rest k₀.timer.toNat (periods tr₁)) tr₂ k₂)
    (hp : p ∈ k₁.readyList) (hwait : ∀ x ∈ tr₂, x.1.dispatched ≠ some p ∧ ¬ x.1.Ends p) :
    (∀ x ∈ tr₂, x.1.after.cpu.busy ∨ x.1.after.cpu = .panicked ∧ x.1.action = .panic) ∧
      slices tr₂ + k₂.readyList.idxOf p ≤ k₁.readyList.idxOf p ∧
      (tr₂.map Prod.snd).sum ≤ timeSlice.toNat * (k₁.readyList.idxOf p + 1) := by
  have hk : Reachable k₁ := ⟨k₀, _, h₀, h₁.run⟩
  obtain ⟨-, hslices, hstart, hwork⟩ := h₂.ready hk hp hwait
  refine ⟨hwork, hslices, ?_⟩
  rcases hstart with rfl | hb
  · exact Nat.zero_le _
  · have hleft := h₁.left_le h₀ hb
    have htotal := h₂.total_le hk fun x hx => (hwork x hx).imp_right And.right
    have hsum := total_periods tr₂
    have hmul : timeSlice.toNat * slices tr₂ ≤ timeSlice.toNat * k₁.readyList.idxOf p :=
      Nat.mul_le_mul_left _ (Nat.le_of_add_right_le hslices)
    rw [hsum] at htotal
    rw [Nat.mul_add]
    omega

/-! ### A run -/

/-- The interval timer interrupts a process that has `t` left. -/
def clockTick (t : Word) : Event :=
  .exception { zeroState with cause := causeIp interTimeInt } { Hw.zero with timer := t }

/-- Two processes have been created; the second waits while the first process
comes to the end of its time slice, which a tick has interrupted, and during
another tick in the time slice of the first of them. -/
theorem ready_waits_script : ∃ k₀ tr₁ k₁ tr₂ k₂, Boot k₀ ∧ Timed k₀ k₀.timer.toNat tr₁ k₁ ∧
    Timed k₁ (Countdown.rest k₀.timer.toNat (periods tr₁)) tr₂ k₂ ∧ k₁.readyList = [1, 2] ∧
      (tr₂.map Prod.snd).sum = 5700 ∧
      (tr₂.map Prod.snd).sum ≤ timeSlice.toNat * (k₁.readyList.idxOf 2 + 1) := by
  have hany : (Script.eval walkFuel .zero .zero [callCreate, callCreate]).any (fun x =>
      (runScript walkFuel x.final [clockTick 4000, pltTick, clockTick 4000]).any fun y =>
        Countdown.Fits x.start.timer.toNat (periods (x.trace.zip [100, 200])) ∧
          Countdown.Fits (Countdown.rest x.start.timer.toNat (periods (x.trace.zip [100, 200])))
            (periods (y.1.zip [700, 4000, 1000])) ∧
          x.final.readyList = [1, 2] ∧
          ∀ z ∈ y.1, z.dispatched ≠ some 2 ∧ ¬ z.Ends 2) = true := by
    decide +kernel
  obtain ⟨x, hx, hany⟩ := Script.exists_of_any hany
  obtain ⟨hboot, hrun, hevents⟩ := Script.run hx
  obtain ⟨⟨tr, k⟩, hy, h⟩ := (Option.any_eq_true _ _).mp hany
  obtain ⟨hfit, hfit', hready, hwait⟩ := of_decide_eq_true h
  have hlen : x.trace.length = 2 := by rw [← List.length_map, hevents]; rfl
  have hlen' : tr.length = 3 := by rw [← List.length_map, runScript_events hy]; rfl
  have h₁ := hrun.timed (List.map_fst_zip (by rw [hlen]; decide)) hfit
  have h₂ := (runScript_run .nil hy).timed (List.map_fst_zip (by simp [hlen'])) hfit'
  have hsum : ((tr.zip [700, 4000, 1000]).map Prod.snd).sum = 5700 := by
    rw [List.map_snd_zip (by simp [hlen'])]
    rfl
  obtain ⟨-, -, hle⟩ := ready_waits (p := 2) hboot h₁ h₂ (by rw [hready]; decide) fun y hy =>
    hwait y.1 (List.of_mem_zip hy).1
  exact ⟨x.start, _, x.final, _, k, hboot, h₁, h₂, hready, hsum, hle⟩

end Pandos
