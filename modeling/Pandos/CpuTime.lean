/-
# `Pandos.CpuTime` — time of day and `p_time`

`startT` is the time of day from which on the running process has not been
charged; a charge adds `stopT - startT` to its `p_time`.  The readings of the
time of day never decrease (`Clocked`).

`accounted` is the time of day up to which the processor's time is accounted
for.  No charge reaches back behind it, so that what is charged in a stretch
of a run is at most the time that has been accounted for in the meantime
(`charged_le_accounted`), as long as the interrupts of devices do no harm:
`handleDeviceInterrupt` sets `startT` from the processor local timer, and the
process it has interrupted is charged from there (`TimerFits`).
-/
import Mathlib.Algebra.BigOperators.Group.Finset.Piecewise
import Mathlib.Algebra.Order.BigOperators.Group.Finset
import Pandos.Books
import Pandos.SoftBlocked

namespace Pandos

open Kernel Simulation

/-! ## Readings -/

/-- The answers of the hardware. -/
def Event.hw : Event → Option Hw
  | .exception _ hw | .refill _ _ hw => some hw
  | .store _ _ => none

/-- The readings of the time of day are not before `t`, and never decrease. -/
def Clocked : Int → List (Trans Queues) → Prop
  | _, [] => True
  | t, x :: tr =>
      match x.event.hw with
      | none => Clocked t tr
      | some hw => t ≤ hw.stopT ∧ hw.stopT ≤ hw.startT ∧ Clocked hw.startT tr

instance decidableClocked : ∀ t tr, Decidable (Clocked t tr)
  | _, [] => .isTrue trivial
  | t, ⟨_, .store _ _, _⟩ :: tr => decidableClocked t tr
  | t, ⟨_, .exception _ hw, _⟩ :: tr =>
      haveI := decidableClocked hw.startT tr
      inferInstanceAs (Decidable (t ≤ hw.stopT ∧ hw.stopT ≤ hw.startT ∧ Clocked hw.startT tr))
  | t, ⟨_, .refill _ _ hw, _⟩ :: tr =>
      haveI := decidableClocked hw.startT tr
      inferInstanceAs (Decidable (t ≤ hw.stopT ∧ hw.stopT ≤ hw.startT ∧ Clocked hw.startT tr))

namespace Trans

variable (x : Trans Queues)

/-- The interrupt of a device finds nobody running, or the processor local
timer happens to show a time of day since the last dispatch. -/
def TimerFits : Prop :=
  match x.action, x.event with
  | .device _, .exception _ hw => x.before.currentProcess = none ∨
      x.before.startT ≤ hw.timerEnd ∧ hw.timerEnd ≤ hw.stopT
  | _, _ => True

/-- What `p` is charged. -/
def increase (p : PcbPtr) : Int :=
  if x.before.Live p then x.after.pTime p - x.before.pTime p else 0

/-- The time of day up to which the processor's time is accounted for, after
this event. -/
def accounted (t : Int) : Int :=
  if x.after.cpu.busy then x.after.startT
  else match x.event.hw with
    | none => t
    | some hw => hw.stopT

/-- The last reading of the time of day. -/
def reading (t : Int) : Int :=
  match x.event.hw with
  | none => t
  | some hw => hw.startT

end Trans

/-- What all processes are charged in a run. -/
def charged (tr : List (Trans Queues)) : Int :=
  (tr.map fun x => Finset.univ.sum x.increase).sum

def accounted (t : Int) (tr : List (Trans Queues)) : Int := tr.foldl (fun t x => x.accounted t) t

def lastReading (t : Int) (tr : List (Trans Queues)) : Int := tr.foldl (fun t x => x.reading t) t

/-! ## One event -/

section

variable {Q : Type} {k k' d : Kernel Q} {hw : Hw} {fuel : Nat}

/-- Nobody is charged; the same process goes on, or one is dispatched. -/
def Kept (hw : Hw) (k k' : Kernel Q) : Prop :=
  k'.pTime = k.pTime ∧ (k'.cpu.busy →
    k'.startT = k.startT ∧ k'.currentProcess = k.currentProcess ∨ k'.startT = hw.startT)

/-- The current process is charged from `t` on. -/
def ChargedFrom (hw : Hw) (t : Int) (k k' : Kernel Q) : Prop :=
  ∃ cur, k.currentProcess = some cur ∧
    k'.pTime = Function.update k.pTime cur (k.pTime cur + (hw.stopT - t)) ∧
    (k'.cpu.busy → k'.startT = hw.startT ∨
      k'.startT = hw.stopT ∧ k'.currentProcess = k.currentProcess)

theorem Leads.kept {cur : PcbPtr} (h : Leads (some cur) k.startT d k')
    (hp : d.pTime = k.pTime) (hcur : k.currentProcess = some cur) : Kept hw k k' := by
  refine ⟨h.pTime.trans hp, fun hb => .inl ?_⟩
  obtain ⟨ht, p, hp, -, hw⟩ := h.busy hb
  refine ⟨ht, ?_⟩
  rw [hp, hcur, hw cur rfl]

theorem Leads.dispatched {w : Option PcbPtr} (h : Leads w hw.startT k k') : Kept hw k k' :=
  ⟨h.pTime, fun hb => .inr (h.busy hb).1⟩

theorem Waits.charge {cur : PcbPtr} (h : Waits hw k cur k') (hcur : k.currentProcess = some cur) :
    Kept hw k k' ∨ ChargedFrom hw k.startT k k' := by
  rcases h with h | h
  · exact .inl (h.kept rfl hcur)
  · exact .inr ⟨cur, hcur, h.pTime, fun hb => .inl (h.busy hb).1⟩

variable [QueueOps Q]

theorem passupOrDie_kept {t : Fin 2} (h : passupOrDie fuel hw k t = some k') : Kept hw k k' := by
  obtain ⟨cur, hcur, h⟩ := Option.bind_eq_some_iff.mp h
  dsimp only at h
  split at h
  · obtain rfl := Option.some.inj h
    exact ⟨rfl, fun _ => .inl ⟨rfl, rfl⟩⟩
  · have hlead := terminateProcess_leads h
    exact ⟨hlead.pTime, fun hb => .inr (hlead.busy hb).1⟩

theorem uTLBRefillHandler_kept {badVAddr : Word}
    (h : uTLBRefillHandler fuel hw k badVAddr = some k') : Kept hw k k' := by
  obtain ⟨cur, hcur, h⟩ := Option.bind_eq_some_iff.mp h
  obtain ⟨-, h⟩ := guard_bind_eq_some.mp h
  split at h
  · have hlead := terminateProcess_leads h
    exact ⟨hlead.pTime, fun hb => .inr (hlead.busy hb).1⟩
  · obtain rfl := Option.some.inj h
    exact ⟨rfl, fun _ => .inl ⟨rfl, hcur.symm⟩⟩

/-- What a call charges; the PCB of a new process starts anew. -/
theorem Served.charge {n : Word} {cur : PcbPtr} (h : Served fuel hw k cur k' n)
    (hcur : k.currentProcess = some cur) :
    Kept hw k k' ∨ ChargedFrom hw k.startT k k' ∨
      ∃ tmp q, QueueOps.allocPcbRing k.q = some (some tmp, q) ∧
        Kept hw { k with pTime := Function.update k.pTime tmp 0 } k' := by
  cases h with
  | create h =>
      rcases createProcessCall_leads h with ⟨q, -, hlead⟩ | ⟨tmp, q, hal, hlead⟩
      · exact .inl (hlead.kept rfl hcur)
      · refine .inr (.inr ⟨tmp, q, hal, ?_⟩)
        exact Leads.kept (k := { k with pTime := Function.update k.pTime tmp 0 }) hlead rfl hcur
  | terminate h => exact .inl (terminateProcess_leads h).dispatched
  | passeren h => exact ((passeren_leads h).charge hcur).imp_right .inl
  | verhogen h => exact .inl ((verhogen_leads h).kept rfl hcur)
  | ioWait h => exact ((waitForIo_leads h).charge hcur).imp_right .inl
  | getTime h =>
      have hlead := getCpuTime_leads hw k cur
      rw [← h] at hlead
      refine .inr (.inl ⟨cur, hcur, hlead.pTime, fun hb => .inr ?_⟩)
      obtain ⟨ht, p, hp, -, hw⟩ := hlead.busy hb
      refine ⟨ht, ?_⟩
      rw [hp, hcur, hw cur rfl]
  | clockWait h => exact ((waitForClock_leads h).charge hcur).imp_right .inl
  | getSupportPtr h =>
      have hlead := getSupportData_leads k cur
      rw [← h] at hlead
      exact .inl (hlead.kept rfl hcur)
  | passup _ h => exact .inl (passupOrDie_kept h)

omit [QueueOps Q] in
/-- The end of an interrupt charges the process it has interrupted. -/
theorem suspended_charge (h : Leads none hw.startT (k.suspended hw) k') :
    k'.pTime = k.pTime ∧ (k'.cpu.busy → k'.startT = hw.startT) ∨ ChargedFrom hw k.startT k k' := by
  unfold Kernel.suspended at h
  cases hcur : k.currentProcess with
  | none =>
      rw [hcur] at h
      exact .inl ⟨h.pTime, fun hb => (h.busy hb).1⟩
  | some cur =>
      rw [hcur] at h
      exact .inr ⟨cur, hcur, h.pTime, fun hb => .inl (h.busy hb).1⟩

end

/-- What an event charges. -/
inductive Charge (k : Kernel Queues) (e : Event) (k' : Kernel Queues) : Prop where
  | stored : e.hw = none → k'.pTime = k.pTime → k'.startT = k.startT →
      k'.currentProcess = k.currentProcess → k.cpu.busy → Charge k e k'
  | kept {hw} : e.hw = some hw → (∀ p, k.Live p → k'.pTime p = k.pTime p) →
      (k'.cpu.busy → k.cpu.busy ∧ k'.startT = k.startT ∧ k'.currentProcess = k.currentProcess ∨
        k'.startT = hw.startT) → Charge k e k'
  | charged {hw t} : e.hw = some hw → ChargedFrom hw t k k' →
      t = k.startT ∨ t = hw.timerEnd ∧ (∃ s, action k.toShared e = .device s) → Charge k e k'

namespace Rep

variable {k k' : Kernel Queues} {c : Core} {saved : State} {hw : Hw} {fuel : Nat}

theorem interrupt_charge (hint : causeGetExcCode saved.cause = excInt)
    (hk : handleInterrupts hw (k.entered saved hw) = some k') :
    Charge k (.exception saved hw) k' := by
  have hact : action k.toShared (.exception saved hw) = interruptAction k.toShared saved hw :=
    if_pos hint
  obtain ⟨d, hd, hlead⟩ := handleInterrupts_handled rfl hk
  -- the state before the end of the interrupt, as far as times are concerned
  have hend : ∀ t, d.pTime = k.pTime → d.currentProcess = k.currentProcess → d.startT = t →
      (t = k.startT ∨ t = hw.timerEnd ∧ ∃ s, action k.toShared (.exception saved hw) = .device s) →
      Charge k (.exception saved hw) k' := by
    rintro t hp hcur rfl ht
    rcases suspended_charge hlead with ⟨hp', hb⟩ | ⟨cur, hcur', hp', hb⟩
    · exact .kept rfl (fun p _ => congrFun (hp'.trans hp) p) fun hbusy => .inr (hb hbusy)
    · refine .charged rfl ⟨cur, hcur.symm.trans hcur', ?_, ?_⟩ ht
      · rw [hp', hp]
      · rw [← hcur]
        exact hb
  cases hd with
  | quiet _ hu => exact hend _ hu.pTime hu.currentProcess hu.startT (.inl rfl)
  | @device line i d _ _ hdev _ hrel =>
      have hfields : d.pTime = k.pTime ∧ d.currentProcess = k.currentProcess := by
        rcases releaseSemAndUpdateStatus_untouched hrel with ⟨-, hu⟩ | ⟨-, tmp, q, -, hu⟩
        · exact ⟨hu.pTime, hu.currentProcess⟩
        · rw [hu.pTime, hu.currentProcess]
          cases tmp <;> exact ⟨rfl, rfl⟩
      exact hend hw.timerEnd hfields.1 hfields.2 rfl (.inr ⟨rfl, _, hact.trans hdev⟩)

/-- Calls and other exceptions of a process. -/
theorem busy_charge (h : Rep k c) (hb : k.cpu.busy)
    (hk : (∃ t, passupOrDie fuel hw (k.entered saved hw) t = some k') ∨
      handleNucleousSystemcalls fuel hw (k.entered saved hw) = some k') :
    Charge k (.exception saved hw) k' := by
  have hkept : ∀ {d : Kernel Queues}, d.startT = k.startT → d.currentProcess = k.currentProcess →
      (∀ p, k.Live p → d.pTime p = k.pTime p) → Kept hw d k' →
      Charge k (.exception saved hw) k' := by
    intro d ht hcur hp hkept
    refine .kept rfl (fun p hlive => (congrFun hkept.1 p).trans (hp p hlive)) fun hbusy => ?_
    rw [← ht, ← hcur]
    exact (hkept.2 hbusy).imp_left fun hsame => ⟨hb, hsame⟩
  have hpass : ∀ {t}, passupOrDie fuel hw (k.entered saved hw) t = some k' →
      Charge k (.exception saved hw) k' := by
    intro t hk
    have hkeep := passupOrDie_kept hk
    exact hkept rfl rfl (fun _ _ => rfl) hkeep
  rcases hk with ⟨t, hk⟩ | hk
  · exact hpass hk
  by_cases hm : saved.status &&& userPOn = 0
  · obtain ⟨cur, hcur, hserved⟩ := handleNucleousSystemcalls_served hm hk
    rcases hserved.charge hcur with hk | hk | ⟨tmp, q, hal, hk⟩
    · exact hkept rfl rfl (fun _ _ => rfl) hk
    · exact .charged rfl hk (.inl rfl)
    · refine hkept (d := { saveState (k.entered saved hw) cur with
        pTime := Function.update k.pTime tmp 0 }) rfl rfl (fun p hlive => ?_) hk
      have hfree : tmp ∈ c.q.free := by
        rw [← h.queues.freeList_eq]
        exact List.mem_of_head? (h.queues.allocPcbRing_head hal).symm
      refine Function.update_of_ne ?_ _ _
      rintro rfl
      exact h.inv.not_free ((h.live_iff p).mp hlive) hfree
  · unfold handleNucleousSystemcalls at hk
    rw [if_pos hm] at hk
    exact hpass hk

theorem step_charge {e : Event} (h : Rep k c) (hs : Step k e k') : Charge k e k' := by
  obtain ⟨fuel, hs⟩ := hs
  cases e with
  | store a v =>
      obtain ⟨hb, hs⟩ := Option.ite_none_right_eq_some.mp hs
      obtain rfl := Option.some.inj hs
      exact .stored rfl rfl rfl rfl hb
  | refill saved badVAddr hw =>
      obtain ⟨hb, hs⟩ := Option.ite_none_right_eq_some.mp hs
      have hkept := uTLBRefillHandler_kept hs
      exact .kept rfl (fun p _ => congrFun hkept.1 p)
        fun hbusy => (hkept.2 hbusy).imp_left fun hsame => ⟨hb, hsame⟩
  | exception saved hw =>
      obtain ⟨htakes, hs⟩ := Option.ite_none_right_eq_some.mp hs
      unfold handleExceptions at hs
      by_cases hint : causeGetExcCode saved.cause = excInt
      · simp only [if_pos hint] at hs
        exact interrupt_charge hint hs
      · have hb := busy_of_takesException htakes hint
        simp only [if_neg hint] at hs
        split at hs
        · exact h.busy_charge hb (.inl ⟨_, hs⟩)
        split at hs
        · exact h.busy_charge hb (.inl ⟨_, hs⟩)
        split at hs
        · exact h.busy_charge hb (.inr hs)
        split at hs
        · exact h.busy_charge hb (.inl ⟨_, hs⟩)
        · exact nomatch hs

end Rep

/-- `t` is the time from which on the running process has not been charged. -/
def Mark (t : Int) (k : Kernel Queues) : Prop := k.cpu.busy → k.startT = t

/-- Only the process that has been running is charged, and another one runs
only from a reading of the time of day on. -/
structure Trans.Fair (x : Trans Queues) : Prop where
  nonneg : ∀ p, 0 ≤ x.increase p
  running : ∀ p, x.increase p ≠ 0 → x.before.running = some p
  switch : x.after.cpu.busy → x.after.currentProcess ≠ x.before.currentProcess →
    ∃ hw, x.event.hw = some hw ∧ x.after.startT = hw.startT

theorem Clocked.head {t : Int} {x : Trans Queues} {tr : List (Trans Queues)} {hw : Hw}
    (h : Clocked t (x :: tr)) (hx : x.event.hw = some hw) :
    t ≤ hw.stopT ∧ hw.stopT ≤ hw.startT := by
  rw [Clocked, hx] at h
  exact ⟨h.1, h.2.1⟩

theorem clocked_append {tr tr' : List (Trans Queues)} : ∀ {t : Int},
    Clocked t (tr ++ tr') ↔ Clocked t tr ∧ Clocked (lastReading t tr) tr' := by
  induction tr with
  | nil =>
      intro t
      simp [Clocked, lastReading]
  | cons x tr ih =>
      intro t
      rw [List.cons_append, Clocked, Clocked, lastReading, List.foldl_cons, Trans.reading]
      cases x.event.hw with
      | none => exact ih
      | some hw =>
          rw [and_assoc, and_assoc]
          exact and_congr_right fun _ => and_congr_right fun _ => ih

section

variable {k k' : Kernel Queues} {c : Core} {e : Event} {t r : Int}

theorem Rep.running_of_current (h : Rep k c) (hs : Step k e k') {p : PcbPtr}
    (hp : k.currentProcess = some p) : k.running = some p := by
  obtain ⟨fuel, d, hnext, -⟩ := h.step hs
  rw [h.running, h.inv.running_eq (Core.next_outcome hnext).1, h.current, hp]

/-- No charge reaches back behind `t`. -/
theorem Charge.fair (h : Charge k e k') (hrun : ∀ p, k.currentProcess = some p → k.running = some p)
    (hmark : Mark t k) (htr : t ≤ r) (hclk : Clocked r [(⟨k, e, k'⟩ : Trans Queues)])
    (hfit : (⟨k, e, k'⟩ : Trans Queues).TimerFits) :
    (⟨k, e, k'⟩ : Trans Queues).Fair ∧
      Finset.univ.sum (⟨k, e, k'⟩ : Trans Queues).increase ≤
        (⟨k, e, k'⟩ : Trans Queues).accounted t - t ∧
      (⟨k, e, k'⟩ : Trans Queues).accounted t ≤ (⟨k, e, k'⟩ : Trans Queues).reading r := by
  let x : Trans Queues := ⟨k, e, k'⟩
  have hnobody : (∀ p, k.Live p → k'.pTime p = k.pTime p) → x.increase = fun _ => 0 := by
    intro hp
    funext p
    unfold Trans.increase
    split
    next hlive => rw [sub_eq_zero]; exact hp p hlive
    · rfl
  cases h with
  | stored he hp ht hcur hb =>
      have hzero := hnobody fun p _ => congrFun hp p
      have hacc : x.accounted t = t := by
        simp only [x, Trans.accounted, he, ht]
        split
        · exact hmark hb
        · rfl
      have hread : x.reading r = r := by simp only [x, Trans.reading, he]
      refine ⟨⟨fun p => (congrFun hzero p).ge, fun p hne => absurd (congrFun hzero p) hne,
        fun _ hne => absurd hcur hne⟩, ?_, ?_⟩
      · show Finset.univ.sum x.increase ≤ x.accounted t - t
        rw [hzero, hacc, Finset.sum_const_zero]
        omega
      · rw [hacc, hread]
        exact htr
  | @kept hw he hp hb =>
      have hzero := hnobody hp
      obtain ⟨h1, h2⟩ := hclk.head he
      have hacc : t ≤ x.accounted t ∧ x.accounted t ≤ hw.startT := by
        simp only [x, Trans.accounted, he]
        split
        next hbusy =>
          rcases hb hbusy with ⟨hkb, hst, -⟩ | hst
          · have := hmark hkb
            omega
          · omega
        · omega
      have hread : x.reading r = hw.startT := by simp only [x, Trans.reading, he]
      refine ⟨⟨fun p => (congrFun hzero p).ge, fun p hne => absurd (congrFun hzero p) hne,
        fun hbusy hne => ?_⟩, ?_, ?_⟩
      · rcases hb hbusy with ⟨-, -, hcur⟩ | hst
        · exact absurd hcur hne
        · exact ⟨hw, he, hst⟩
      · show Finset.univ.sum x.increase ≤ x.accounted t - t
        rw [hzero, Finset.sum_const_zero]
        omega
      · rw [hread]
        exact hacc.2
  | @charged hw t' he hch ht =>
      obtain ⟨cur, hcur, hp, hb⟩ := hch
      have hrunning := hrun cur hcur
      have hbusy : k.cpu.busy = true := by
        by_contra hnb
        rw [Kernel.running, if_neg hnb] at hrunning
        cases hrunning
      obtain ⟨h1, h2⟩ := hclk.head he
      have hstart := hmark hbusy
      have ht' : t ≤ t' ∧ t' ≤ hw.stopT := by
        rcases ht with rfl | ⟨rfl, s, hact⟩
        · omega
        · cases e with
          | store _ _ => cases he
          | refill _ _ _ =>
              exact absurd hact (by
                simp only [action]
                repeat' split
                all_goals rintro ⟨⟩)
          | exception saved hw' =>
              obtain rfl := Option.some.inj he
              simp only [Trans.TimerFits, Trans.action, hact, hcur] at hfit
              have := hfit.resolve_left (by rintro ⟨⟩)
              omega
      have hinc : x.increase = fun p => if p = cur then hw.stopT - t' else 0 := by
        funext p
        simp only [x, Trans.increase, hp]
        by_cases hpc : p = cur
        · subst hpc
          rw [if_pos (show k.Live p from .inr (.inr hrunning)), Function.update_self, if_pos rfl]
          omega
        · rw [Function.update_of_ne hpc, if_neg hpc]
          split <;> omega
      have hacc : hw.stopT ≤ x.accounted t ∧ x.accounted t ≤ hw.startT := by
        simp only [x, Trans.accounted, he]
        split
        next hbusy => rcases hb hbusy with hst | ⟨hst, -⟩ <;> omega
        · omega
      have hread : x.reading r = hw.startT := by simp only [x, Trans.reading, he]
      refine ⟨⟨fun p => ?_, fun p hne => ?_, fun hbusy hne => ?_⟩, ?_, ?_⟩
      · rw [congrFun hinc p]
        split <;> omega
      · rw [congrFun hinc p] at hne
        obtain rfl : p = cur := by
          by_contra hpc
          exact hne (if_neg hpc)
        exact hrunning
      · rcases hb hbusy with hst | ⟨-, hsame⟩
        · exact ⟨hw, he, hst⟩
        · exact absurd hsame hne
      · show Finset.univ.sum x.increase ≤ x.accounted t - t
        rw [hinc, Finset.sum_ite_eq' Finset.univ cur, if_pos (Finset.mem_univ cur)]
        omega
      · rw [hread]
        exact hacc.2

end

/-! ## Runs -/

@[simp] theorem accounted_concat (t : Int) (tr : List (Trans Queues)) (x : Trans Queues) :
    accounted t (tr ++ [x]) = x.accounted (accounted t tr) := by simp [accounted]

@[simp] theorem lastReading_concat (t : Int) (tr : List (Trans Queues)) (x : Trans Queues) :
    lastReading t (tr ++ [x]) = x.reading (lastReading t tr) := by simp [lastReading]

theorem accounted_append (t : Int) (tr tr' : List (Trans Queues)) :
    accounted t (tr ++ tr') = accounted (accounted t tr) tr' := List.foldl_append ..

theorem lastReading_append (t : Int) (tr tr' : List (Trans Queues)) :
    lastReading t (tr ++ tr') = lastReading (lastReading t tr) tr' := List.foldl_append ..

/-- What is known in a run whose interrupts do no harm. -/
structure TimeInv (t r : Int) (k : Kernel Queues) : Prop where
  rep : ∃ c, Rep k c
  mark : Mark t k
  le : t ≤ r

theorem Run.fair {k₁ k : Kernel Queues} {tr : List (Trans Queues)} {t r : Int}
    (h : Run k₁ tr k) (hinv : TimeInv t r k₁) (hclk : Clocked r tr)
    (hfit : ∀ x ∈ tr, x.TimerFits) :
    TimeInv (accounted t tr) (lastReading r tr) k ∧ (∀ x ∈ tr, x.Fair) ∧
      charged tr ≤ accounted t tr - t := by
  induction h with
  | nil => exact ⟨hinv, by simp, by simp [charged, accounted]⟩
  | @snoc tr k e k' _ hstep ih =>
      obtain ⟨hclk, hlast⟩ := clocked_append.mp hclk
      obtain ⟨⟨⟨c, hc⟩, hmark, hle⟩, hall, htotal⟩ :=
        ih hclk fun x hx => hfit x (List.mem_append_left _ hx)
      obtain ⟨hfair, hsum, hread⟩ := (hc.step_charge hstep).fair
        (fun p => hc.running_of_current hstep) hmark hle hlast (hfit _ (by simp))
      obtain ⟨fuel, d, -, hd⟩ := hc.step hstep
      refine ⟨⟨⟨d, hd⟩, fun hb => ?_, ?_⟩, fun x hx => ?_, ?_⟩
      · rw [accounted_concat, Trans.accounted, if_pos hb]
      · rw [accounted_concat, lastReading_concat]
        exact hread
      · rcases List.mem_append.mp hx with hx | hx
        · exact hall x hx
        · obtain rfl := List.mem_singleton.mp hx
          exact hfair
      · rw [accounted_concat, charged, List.map_append, List.sum_append]
        simp only [charged, List.map_cons, List.map_nil, List.sum_singleton] at htotal ⊢
        omega

/-- The time of a process that stays alive is what it has been charged. -/
theorem Run.pTime_sub {k₁ k : Kernel Queues} {tr : List (Trans Queues)} {p : PcbPtr}
    (h : Run k₁ tr k) (hlive : ∀ x ∈ tr, x.before.Live p) :
    k.pTime p - k₁.pTime p = (tr.map fun x => x.increase p).sum := by
  induction h with
  | nil => simp
  | @snoc tr k e k' _ _ ih =>
      have hlast : (⟨k, e, k'⟩ : Trans Queues).increase p = k'.pTime p - k.pTime p :=
        if_pos (hlive ⟨k, e, k'⟩ (by simp))
      rw [List.map_append, List.sum_append, ← ih fun x hx => hlive x (List.mem_append_left _ hx)]
      simp only [List.map_cons, List.map_nil, List.sum_singleton, hlast]
      omega

theorem sum_increase_le {tr : List (Trans Queues)} (h : ∀ x ∈ tr, x.Fair) (p : PcbPtr) :
    (tr.map fun x => x.increase p).sum ≤ charged tr := by
  induction tr with
  | nil => rfl
  | cons x tr ih =>
      have hone : x.increase p ≤ Finset.univ.sum x.increase :=
        Finset.single_le_sum (fun q _ => (h x (by simp)).nonneg q) (Finset.mem_univ p)
      have hrest := ih fun y hy => h y (List.mem_cons_of_mem _ hy)
      simp only [charged, List.map_cons, List.sum_cons] at hrest ⊢
      omega

/-- `p` has issued `SYSCALL(GETTIME)` at the time of day `t`. -/
def Trans.Reports (x : Trans Queues) (p : PcbPtr) (t : Int) : Prop :=
  x.before.currentProcess = some p ∧
    ∃ saved hw, x.event = .exception saved hw ∧ Calls saved getTime ∧ hw.stopT = t

/-- After `GETTIME` all time is accounted for. -/
theorem Trans.Reports.accounted {x : Trans Queues} {p : PcbPtr} {t : Int} (h : x.Reports p t)
    (hs : Step x.before x.event x.after) (t' : Int) : x.accounted t' = t := by
  obtain ⟨k, e, k'⟩ := x
  obtain ⟨hp, saved, hw, rfl, hcalls, rfl⟩ := h
  obtain ⟨fuel, hs⟩ := hs
  obtain ⟨htakes, -⟩ := Option.ite_none_right_eq_some.mp hs
  have hb := busy_of_takesException htakes (by rw [hcalls.code]; decide)
  rw [step_call hb hcalls] at hs
  obtain ⟨cur, -, hserved⟩ := handleNucleousSystemcalls_served hcalls.kernelMode hs
  have hnum : saved.regA0 = getTime := hcalls.number
  generalize hn : saved.regA0 = n at hnum
  have hserved : Served fuel hw _ cur k' n := hn ▸ hserved
  cases hserved with
  | getTime hk =>
      have hk : k' = getCpuTime hw _ cur := hk
      have hbusy : k'.cpu.busy = true := by
        rw [hk]
        rfl
      have hstart : k'.startT = hw.stopT := by
        rw [hk]
        rfl
      exact (if_pos hbusy).trans hstart
  | passup hpass _ => exact absurd (hnum ▸ by decide) hpass
  | create _ | terminate _ | passeren _ | verhogen _ | ioWait _ | clockWait _ | getSupportPtr _ =>
      exact absurd hnum (by decide)

theorem Run.accounted_of_reports {k₁ k : Kernel Queues} {tr : List (Trans Queues)}
    {x : Trans Queues} {p : PcbPtr} {t t' : Int} (h : Run k₁ tr k) (hx : tr.getLast? = some x)
    (hr : x.Reports p t) : accounted t' tr = t := by
  cases h with
  | nil => exact nomatch hx
  | snoc _ hstep =>
      rw [List.getLast?_append, List.getLast?_singleton] at hx
      obtain rfl := Option.some.inj hx
      rw [accounted_concat]
      exact hr.accounted hstep _

/-- In every run in which the interrupts of devices do no harm, and in every
stretch of it: no `p_time` decreases, only the process that has been running
is charged, and all together are charged at most the time that has been
accounted for in the meantime.  Between two `GETTIME` calls of a process its
time grows by no more than the time of day. -/
theorem charged_le_accounted {k₀ k₁ k : Kernel Queues} {tr₁ tr₂ : List (Trans Queues)}
    (h₀ : Boot k₀) (h₁ : Run k₀ tr₁ k₁) (h₂ : Run k₁ tr₂ k)
    (hclk : Clocked k₀.startT (tr₁ ++ tr₂)) (hfit : ∀ x ∈ tr₁ ++ tr₂, x.TimerFits) :
    (∀ x ∈ tr₂, x.Fair) ∧
      charged tr₂ ≤ accounted k₀.startT (tr₁ ++ tr₂) - accounted k₀.startT tr₁ ∧
      accounted k₀.startT (tr₁ ++ tr₂) ≤ lastReading k₀.startT (tr₁ ++ tr₂) ∧
      (k₁.cpu.busy → k₁.startT = accounted k₀.startT tr₁) ∧
      ∀ p t t' x y, tr₁.getLast? = some x → tr₂.getLast? = some y → x.Reports p t →
        y.Reports p t' → (∀ z ∈ tr₂, z.before.Live p) → k.pTime p - k₁.pTime p ≤ t' - t := by
  obtain ⟨m, hrep⟩ := h₀.rep
  have hinv : TimeInv k₀.startT k₀.startT k₀ := ⟨⟨_, hrep⟩, fun _ => rfl, le_rfl⟩
  obtain ⟨hclk₁, hclk₂⟩ := clocked_append.mp hclk
  obtain ⟨hinv₁, -, -⟩ := h₁.fair hinv hclk₁ fun x hx => hfit x (List.mem_append_left _ hx)
  obtain ⟨hinv₂, hfair, htotal⟩ :=
    h₂.fair hinv₁ hclk₂ fun x hx => hfit x (List.mem_append_right _ hx)
  rw [accounted_append, lastReading_append]
  refine ⟨hfair, htotal, hinv₂.le, hinv₁.mark, ?_⟩
  intro p t t' x y hx hy hxr hyr hlive
  have hsum := sum_increase_le hfair p
  rw [← h₂.pTime_sub hlive] at hsum
  rw [h₁.accounted_of_reports hx hxr] at htotal
  rw [h₂.accounted_of_reports hy hyr] at htotal
  omega

/-! ### Two runs -/

/-- The hardware at the time of day `t`, the processor local timer at `50`. -/
def Hw.at (t : Int) : Hw := { Hw.zero with stopT := t, startT := t, timerEnd := 50 }

def callTimeAt (t : Int) : Event := .exception (callState getTime 0 0 0) (.at t)

def callWaitAt (t : Int) : Event := .exception (callState ioWait 3 0 0) (.at t)

/-- The first disk is done. -/
def diskDoneAt (t : Int) : Event :=
  .exception { zeroState with cause := causeIp diskInt }
    { Hw.at t with bitmap := fun _ => 1, devReg := fun _ _ => ⟨ready, 0, 0, 0⟩ }

instance (x : Trans Queues) : Decidable x.TimerFits :=
  match hx : x.action, he : x.event with
  | .device _, .exception _ hw =>
      decidable_of_iff (x.before.currentProcess = none ∨
        x.before.startT ≤ hw.timerEnd ∧ hw.timerEnd ≤ hw.stopT)
        (by rw [Trans.TimerFits, hx, he])
  | .device _, .refill _ _ _ | .device _, .store _ _ =>
      .isTrue (by rw [Trans.TimerFits, hx, he]; trivial)
  | .createProcess, _ | .terminate, _ | .passeren _, _ | .verhogen _, _ | .ioWait _, _
  | .clockWait _, _ | .resume, _ | .plt, _ | .tick _, _ | .spurious, _ | .store _ _, _
  | .panic, _ | .reject, _ => .isTrue (by rw [Trans.TimerFits, hx]; trivial)

/-- The last entry of a trace whose last event is a `GETTIME` of `p`. -/
theorem exists_reports {tr : List (Trans Queues)} {es : List Event} {p : PcbPtr} {t : Int}
    (hes : tr.map Trans.event = es) (hlast : es.getLast? = some (callTimeAt t))
    (hp : (tr.getLast?.any fun x => x.before.currentProcess = some p) = true) :
    ∃ x, tr.getLast? = some x ∧ x.Reports p t := by
  obtain ⟨x, hx, hcur⟩ := (Option.any_eq_true _ _).mp hp
  rw [← hes, List.getLast?_map, hx] at hlast
  exact ⟨x, hx, of_decide_eq_true hcur, _, _, Option.some.inj hlast, ⟨by decide, by decide, rfl⟩, rfl⟩

/-- Between its two `GETTIME` calls the process waits for the disk for a while. -/
theorem charged_le_accounted_script : ∃ k₀ tr₁ k₁ tr₂ k, Boot k₀ ∧ Run k₀ tr₁ k₁ ∧
    Run k₁ tr₂ k ∧ k.pTime 0 - k₁.pTime 0 = 30 ∧ k.pTime 0 - k₁.pTime 0 ≤ 1060 - 1010 := by
  have hany : (Script.eval walkFuel .zero (.at 1000) [callTimeAt 1010]).any (fun x =>
      (runScript walkFuel x.final [callWaitAt 1030, diskDoneAt 1050, callTimeAt 1060]).any
        fun y => Clocked x.start.startT (x.trace ++ y.1) ∧
          (x.trace ++ y.1).all (fun z => z.TimerFits) ∧ y.1.all (fun z => z.before.Live 0) ∧
          (x.trace.getLast?.any fun z => z.before.currentProcess = some 0) ∧
          (y.1.getLast?.any fun z => z.before.currentProcess = some 0) ∧
          y.2.pTime 0 - x.final.pTime 0 = 30) = true := by
    decide +kernel
  obtain ⟨x, hx, hany⟩ := Script.exists_of_any hany
  obtain ⟨hboot, hrun, hevents⟩ := Script.run hx
  obtain ⟨⟨tr, k⟩, hy, h⟩ := (Option.any_eq_true _ _).mp hany
  obtain ⟨hclk, hfit, hlive, hcur, hcur', hgrow⟩ := of_decide_eq_true h
  have hrun' := runScript_run .nil hy
  obtain ⟨-, -, -, -, hreport⟩ := charged_le_accounted hboot hrun hrun' hclk fun z hz =>
    of_decide_eq_true (List.all_eq_true.mp hfit z hz)
  obtain ⟨a, ha, har⟩ := exists_reports hevents rfl hcur
  obtain ⟨b, hb, hbr⟩ := exists_reports (runScript_events hy) rfl hcur'
  refine ⟨x.start, x.trace, x.final, tr, k, hboot, hrun, hrun', hgrow, ?_⟩
  exact hreport 0 1010 1060 a b ha hb har hbr fun z hz =>
    of_decide_eq_true (List.all_eq_true.mp hlive z hz)

/-- The first process has run for a hundred ticks when an interrupt of the
disk comes, with `50` in the processor local timer, and is charged 1050. -/
theorem overcharged_script : ∃ k₀ tr k, Boot k₀ ∧ Run k₀ tr k ∧
    tr.map Trans.event = [diskDoneAt 1100] ∧ Clocked k₀.startT tr ∧ k₀.running = some 0 ∧
      lastReading k₀.startT tr - k₀.startT = 100 ∧ k.pTime 0 - k₀.pTime 0 = 1050 := by
  have hany : (Script.eval walkFuel .zero (.at 1000) [diskDoneAt 1100]).any (fun x =>
      Clocked x.start.startT x.trace ∧ x.start.running = some 0 ∧
        lastReading x.start.startT x.trace - x.start.startT = 100 ∧
        x.final.pTime 0 - x.start.pTime 0 = 1050) = true := by
    decide +kernel
  obtain ⟨x, hx, h⟩ := Script.exists_of_any hany
  obtain ⟨hboot, hrun, hevents⟩ := Script.run hx
  exact ⟨x.start, x.trace, x.final, hboot, hrun, hevents, of_decide_eq_true h⟩

end Pandos
