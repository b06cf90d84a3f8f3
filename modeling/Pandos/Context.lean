/-
# `Pandos.Context` — processor states across the nucleus

The state a process is resumed with is decided by what has happened to it,
not by where the nucleus keeps it in the meantime.  `contexts` tells it from
the history of a run: the state the BIOS saved at the last exception of the
process (behind the `SYSCALL`, with its result in `v0`), the status of the
completion that has woken it since, or what `CREATEPROCESS` was given.

In every run of nucleus calls and interrupts, `p_s` holds this state at any
time, and the processor runs every process from it (`resumed_from_context`).
-/
import Pandos.Books
import Pandos.SoftBlocked

namespace Pandos

open Kernel Simulation

/-! ## The history of a process -/

/-- Nucleus calls in kernel mode, and interrupts; in between processes compute. -/
def Event.Nucleus : Event → Prop
  | .exception saved _ => causeGetExcCode saved.cause = excInt ∨
      causeGetExcCode saved.cause = excSys ∧ saved.status &&& userPOn = 0 ∧
        saved.regA0 ∈ nucleusCalls
  | .store _ _ => True
  | .refill _ _ _ => False

instance (e : Event) : Decidable e.Nucleus :=
  match e with
  | .exception _ _ => inferInstanceAs (Decidable (_ ∨ _ ∧ _ ∧ _))
  | .store _ _ => .isTrue trivial
  | .refill _ _ _ => .isFalse id

namespace Trans

variable (x : Trans Queues)

/-- What `p`, which has run up to `saved`, is to be resumed with. -/
def context (saved : State) (p : PcbPtr) : State :=
  if causeGetExcCode saved.cause = excInt then saved
  else
    let s := { saved with pcEpc := saved.pcEpc + 4 }
    if saved.regA0 = createProcess then s.setV0 (if x.before.q.freeList = [] then -1 else 0)
    else if saved.regA0 = getTime then s.setV0 (BitVec.ofInt 32 (x.after.pTime p))
    else if saved.regA0 = getSupportPtr then s.setV0 (x.before.pSupportStruct p)
    else s

/-- The process that a completion wakes. -/
def woken : Option PcbPtr :=
  match x.action with
  | .device s => if x.before.mem s ≤ 0 then (x.before.blockedOn s).head? else none
  | _ => none

/-- The process that is created. -/
def created : Option PcbPtr :=
  match x.action with
  | .createProcess => x.before.q.freeList.head?
  | _ => none

/-- The status of the completion. -/
def status : Word :=
  match x.event with
  | .exception saved hw => hw.answer (BitVec.ofNat 32 ((pendingLine saved.cause).getD 0))
  | _ => 0

/-- The states all processes are to be resumed with, after this event. -/
def contexts (ctx : PcbPtr → State) (p : PcbPtr) : State :=
  match x.event with
  | .exception saved hw =>
      if x.before.currentProcess = some p then x.context saved p
      else if x.woken = some p then (ctx p).setV0 x.status
      else if x.created = some p then hw.stateAt saved.regA1
      else ctx p
  | _ => ctx p

end Trans

/-- The states all processes are to be resumed with, after a run. -/
def contexts (k₀ : Kernel Queues) (tr : List (Trans Queues)) : PcbPtr → State :=
  tr.foldl (fun ctx x => x.contexts ctx) k₀.pS

@[simp] theorem contexts_concat (k₀ : Kernel Queues) (tr : List (Trans Queues))
    (x : Trans Queues) : contexts k₀ (tr ++ [x]) = x.contexts (contexts k₀ tr) := by
  simp [contexts]

/-! ## One event -/

/-- The processor runs the current process from its saved state. -/
def Loaded (k : Kernel Queues) : Prop :=
  ∀ s, k.cpu = .running s → ∃ p, k.currentProcess = some p ∧ s = k.pS p

theorem Leads.loaded {w : Option PcbPtr} {t : Int} {k k' : Kernel Queues}
    (h : Leads w t k k') : Loaded k' := by
  intro s hs
  obtain ⟨-, p, hp, hrun, -⟩ := h.busy (by rw [hs]; rfl)
  refine ⟨p, hp, ?_⟩
  rw [h.pS]
  exact Cpu.running.inj (hs.symm.trans hrun)

section

variable {Q : Type} {k : Kernel Q}

theorem suspended_pS (k : Kernel Q) (hw : Hw) : (k.suspended hw).pS = fun p =>
    if k.currentProcess = some p then k.biosDataPage else k.pS p := by
  funext p
  unfold Kernel.suspended
  cases hcur : k.currentProcess with
  | none => simp
  | some cur =>
      by_cases hp : p = cur
      · subst hp
        simp [Kernel.interrupted, Kernel.setState, Kernel.charge, Kernel.addTime]
      · simp [Kernel.interrupted, Kernel.setState, Kernel.charge, Kernel.addTime, hp, Ne.symm hp]

theorem answered_pS (k : Kernel Q) (status : Word) (tmp : Option PcbPtr) :
    (k.answered status tmp).pS = fun p =>
      if tmp = some p then (k.pS p).setV0 status else k.pS p := by
  funext p
  cases tmp with
  | none => simp [Kernel.answered]
  | some tmp =>
      by_cases hp : p = tmp
      · subst hp
        simp [Kernel.answered, Kernel.setState]
      · simp [Kernel.answered, Kernel.setState, hp, Ne.symm hp]

end

theorem interruptAction_ne_create (k : Shared) (s : State) (hw : Hw) :
    interruptAction k s hw ≠ .createProcess := by
  intro h
  have hof := interruptAction_of k s hw
  rw [h] at hof
  exact nomatch hof

theorem syscallAction_ne_device (k : Shared) (s : State) (a : Word) :
    syscallAction k s ≠ .device a := by
  intro h
  have hof := syscallAction_of k s
  rw [h] at hof
  cases hof with
  | passup hpass => exact nomatch hpass

theorem syscallAction_create {k : Shared} {s : State} (h : syscallAction k s = .createProcess) :
    s.regA0 = createProcess := by
  have hof := syscallAction_of k s
  rw [h] at hof
  cases hof with
  | passup hpass => exact nomatch hpass
  | createProcess hn => exact hn

namespace Trans

variable {k k' d : Kernel Queues} {saved : State} {hw : Hw}

theorem woken_eq_none {x : Trans Queues} (h : ∀ s, x.action ≠ .device s) : x.woken = none := by
  unfold woken
  split
  next s hs => exact absurd hs (h s)
  · rfl

theorem created_eq_none {x : Trans Queues} (h : x.action ≠ .createProcess) :
    x.created = none := by
  unfold created
  split
  next hs => exact absurd hs h
  · rfl

/-- The end of an interrupt. -/
theorem contexts_suspended (hint : causeGetExcCode saved.cause = excInt)
    (hS : d.pS = fun p =>
      if (⟨k, .exception saved hw, k'⟩ : Trans Queues).woken = some p then
        (k.pS p).setV0 (⟨k, .exception saved hw, k'⟩ : Trans Queues).status
      else k.pS p)
    (hcur : d.currentProcess = k.currentProcess) (hbios : d.biosDataPage = saved) :
    (d.suspended hw).pS = (⟨k, .exception saved hw, k'⟩ : Trans Queues).contexts k.pS := by
  have hcr : (⟨k, .exception saved hw, k'⟩ : Trans Queues).created = none := by
    refine created_eq_none ?_
    simp only [action, Pandos.action, if_pos hint]
    exact interruptAction_ne_create _ _ _
  funext p
  simp only [suspended_pS, hS, hcur, hbios, contexts, context, if_pos hint, hcr]
  rfl

/-- The end of a call that has created nobody. -/
theorem contexts_call {cur : PcbPtr} (hsys : causeGetExcCode saved.cause = excSys)
    (hcur : k.currentProcess = some cur)
    (hcr : (⟨k, .exception saved hw, k'⟩ : Trans Queues).created = none) :
    Function.update k.pS cur ((⟨k, .exception saved hw, k'⟩ : Trans Queues).context saved cur) =
      (⟨k, .exception saved hw, k'⟩ : Trans Queues).contexts k.pS := by
  have hw : (⟨k, .exception saved hw, k'⟩ : Trans Queues).woken = none := by
    refine woken_eq_none fun s => ?_
    simp only [action, Pandos.action, if_neg (show ¬ causeGetExcCode saved.cause = excInt by
      rw [hsys]; decide), if_pos hsys]
    exact syscallAction_ne_device _ _ _
  funext p
  by_cases hp : p = cur
  · subst hp
    rw [Function.update_self]
    simp only [contexts, hcur, if_true]
  · have hne : ¬ k.currentProcess = some p := by
      rw [hcur]
      exact fun e => hp (Option.some.inj e).symm
    rw [Function.update_of_ne hp]
    simp only [contexts, if_neg hne, hw, hcr]
    rfl

end Trans

namespace Rep

variable {k k' : Kernel Queues} {c : Core} {saved : State} {hw : Hw} {fuel : Nat}

theorem interrupt_contexts (h : Rep k c) (hint : causeGetExcCode saved.cause = excInt)
    (hk : handleInterrupts hw (k.entered saved hw) = some k') :
    k'.pS = (⟨k, .exception saved hw, k'⟩ : Trans Queues).contexts k.pS ∧ Loaded k' := by
  let x : Trans Queues := ⟨k, .exception saved hw, k'⟩
  have hact : x.action = interruptAction k.toShared saved hw := if_pos hint
  obtain ⟨d, hd, hlead⟩ := handleInterrupts_handled rfl hk
  refine ⟨hlead.pS.trans ?_, hlead.loaded⟩
  cases hd with
  | quiet hne hu =>
      refine Trans.contexts_suspended hint ?_ hu.currentProcess hu.biosDataPage
      rw [hu.pS, Trans.woken_eq_none fun s => hact ▸ hne s]
      rfl
  | @device line i d hl _ hdev hlt hrel =>
      have hwoken : x.woken = if k.mem (k.layout.semAdd i) ≤ 0 then
          (k.blockedOn (k.layout.semAdd i)).head? else none := by
        simp only [Trans.woken, hact.trans hdev]
        rfl
      have hstatus : x.status = hw.answer (BitVec.ofNat 32 line) := by
        show hw.answer (BitVec.ofNat 32 ((pendingLine saved.cause).getD 0)) = _
        rw [show pendingLine saved.cause = some line from hl]
        rfl
      have hs := Core.accessible_ne (k.layout.isDevice_semAdd hlt).accessible
      rcases releaseSemAndUpdateStatus_untouched hrel with ⟨hpos, hu⟩ | ⟨hle, tmp, q, hrem, hu⟩
      · refine Trans.contexts_suspended hint ?_ hu.currentProcess hu.biosDataPage
        have hnone : x.woken = none := hwoken.trans (if_neg (not_le.mpr hpos))
        show d.pS = fun p => if x.woken = some p then (k.pS p).setV0 x.status else k.pS p
        rw [hu.pS, hnone]
        rfl
      · have htmp : x.woken = tmp := by
          rw [hwoken, h.queues.removeBlocked_head hs.2 hrem]
          exact if_pos hle
        have hfields : ∀ d : Kernel Queues, ∀ w t, (d.answered w t).currentProcess =
            d.currentProcess ∧ (d.answered w t).biosDataPage = d.biosDataPage := by
          intro d w t
          cases t <;> exact ⟨rfl, rfl⟩
        refine Trans.contexts_suspended hint ?_ (hu.currentProcess.trans (hfields _ _ _).1)
          (hu.biosDataPage.trans (hfields _ _ _).2)
        show d.pS = fun p => if x.woken = some p then (k.pS p).setV0 x.status else k.pS p
        rw [hu.pS, answered_pS, htmp, hstatus]
        rfl

/-- The caller goes on behind the call, and a new process starts where it was told to. -/
theorem create_contexts {cur : PcbPtr} (h : Rep k c) (hb : k.cpu.busy)
    (hcur : k.currentProcess = some cur) (hcalls : Calls saved createProcess)
    (hk : createProcessCall hw (saveState (k.entered saved hw) cur) cur = some k') :
    k'.pS = (⟨k, .exception saved hw, k'⟩ : Trans Queues).contexts k.pS ∧ Loaded k' := by
  let x : Trans Queues := ⟨k, .exception saved hw, k'⟩
  have hnint : ¬ causeGetExcCode saved.cause = excInt := by
    rw [hcalls.code]
    decide
  have hnum : saved.regA0 = createProcess := hcalls.number
  have hact : x.action = .createProcess := by
    simp only [x, Trans.action, action, if_neg hnint, if_pos hcalls.code, syscallAction,
      hcalls.kernelMode, hnum, ne_eq, not_true_eq_false, if_false, if_true]
  have hcreated : x.created = k.q.freeList.head? := by
    simp only [Trans.created, hact]
    rfl
  have hctx : x.context saved cur = State.setV0 { saved with pcEpc := saved.pcEpc + 4 }
      (if k.q.freeList = [] then -1 else 0) := by
    simp only [Trans.context, if_neg hnint, hnum, if_true]
    rfl
  have hsave : (saveState (k.entered saved hw) cur).pS =
      Function.update k.pS cur { saved with pcEpc := saved.pcEpc + 4 } := saveState_pS _ _
  have hdet : cur ∉ c.q.free :=
    (h.inv.detached (.inl (h.mode.trans (Cpu.mode_eq_busy.mpr hb))) (h.current.trans hcur)).1
  rcases createProcessCall_leads hk with ⟨q, hal, hlead⟩ | ⟨tmp, q, hal, hlead⟩
  · have hnil : k.q.freeList = [] := by
      rw [← List.head?_eq_none_iff]
      exact (h.queues.allocPcbRing_head hal).symm
    refine ⟨hlead.pS.trans ?_, hlead.loaded⟩
    refine Eq.trans ?_ (Trans.contexts_call hcalls.code hcur (by rw [hcreated, hnil]; rfl))
    rw [hctx, hnil, if_pos rfl]
    simp [Kernel.setState, hsave]
  · have hhead : k.q.freeList.head? = some tmp := (h.queues.allocPcbRing_head hal).symm
    have hne : k.q.freeList ≠ [] := by
      intro e
      rw [e] at hhead
      cases hhead
    have hct : cur ≠ tmp := by
      rintro rfl
      exact hdet (h.queues.freeList_eq ▸ List.mem_of_head? hhead)
    have hwoken : x.woken = none := Trans.woken_eq_none fun s => by
      rw [hact]
      rintro ⟨⟩
    refine ⟨hlead.pS.trans (funext fun p => ?_), hlead.loaded⟩
    show _ = (if k.currentProcess = some p then x.context saved p
      else if x.woken = some p then (k.pS p).setV0 x.status
      else if x.created = some p then hw.stateAt saved.regA1 else k.pS p)
    rw [hcur, hwoken, hcreated, hhead]
    by_cases hp : p = cur
    · subst hp
      rw [if_pos rfl, hctx, if_neg hne]
      simp [Kernel.setState, hsave, hct]
    · rw [if_neg fun e => hp (Option.some.inj e).symm, if_neg (by rintro ⟨⟩)]
      by_cases hpt : p = tmp
      · subst hpt
        simp [Kernel.setState, hsave, hp, State.regA1]
      · have hpt' : ¬ some tmp = some p := fun e => hpt (Option.some.inj e).symm
        simp [Kernel.setState, hsave, hp, hpt, Ne.symm hpt]

theorem call_contexts (h : Rep k c) (hb : k.cpu.busy)
    (hsys : causeGetExcCode saved.cause = excSys) (hm : saved.status &&& userPOn = 0)
    (hn : saved.regA0 ∈ nucleusCalls)
    (hk : handleNucleousSystemcalls fuel hw (k.entered saved hw) = some k') :
    k'.pS = (⟨k, .exception saved hw, k'⟩ : Trans Queues).contexts k.pS ∧ Loaded k' := by
  let x : Trans Queues := ⟨k, .exception saved hw, k'⟩
  obtain ⟨cur, hcur, hserved⟩ := handleNucleousSystemcalls_served hm hk
  have hnint : ¬ causeGetExcCode saved.cause = excInt := by
    rw [hsys]
    decide
  have hsave : (saveState (k.entered saved hw) cur).pS =
      Function.update k.pS cur { saved with pcEpc := saved.pcEpc + 4 } := saveState_pS _ _
  -- all calls but `CREATEPROCESS` touch the state of the caller only
  have hother : ∀ {n : Word}, saved.regA0 = n → n ≠ createProcess →
      k'.pS = Function.update k.pS cur (x.context saved cur) → k'.pS = x.contexts k.pS := by
    intro n hnum hne hpS
    refine hpS.trans (Trans.contexts_call hsys hcur (Trans.created_eq_none ?_))
    simp only [Trans.action, action, if_neg hnint, if_pos hsys]
    exact fun hact => hne (hnum.symm.trans (syscallAction_create hact))
  have hctx : ∀ {n : Word}, saved.regA0 = n → n ≠ createProcess → n ≠ getTime →
      n ≠ getSupportPtr → x.context saved cur = { saved with pcEpc := saved.pcEpc + 4 } := by
    intro n hnum h1 h2 h3
    simp only [Trans.context, if_neg hnint, hnum, if_neg h1, if_neg h2, if_neg h3]
  generalize hnum : saved.regA0 = n at hn hother hctx
  have hserved : Served fuel hw (saveState (k.entered saved hw) cur) cur k' n := hnum ▸ hserved
  have hwaits : Waits hw (saveState (k.entered saved hw) cur) cur k' → k'.pS =
      Function.update k.pS cur { saved with pcEpc := saved.pcEpc + 4 } ∧ Loaded k' := by
    rintro (hlead | hlead)
    · exact ⟨hlead.pS.trans hsave, hlead.loaded⟩
    · exact ⟨hlead.pS.trans hsave, hlead.loaded⟩
  cases hserved with
  | create hk => exact h.create_contexts hb hcur ⟨hsys, hm, hnum⟩ hk
  | terminate hk =>
      have hlead := terminateProcess_leads hk
      refine ⟨hother rfl (by decide) ?_, hlead.loaded⟩
      rw [hctx rfl (by decide) (by decide) (by decide), hlead.pS, hsave]
  | passeren hk =>
      refine ⟨hother rfl (by decide) ?_, (hwaits (passeren_leads hk)).2⟩
      rw [hctx rfl (by decide) (by decide) (by decide), (hwaits (passeren_leads hk)).1]
  | verhogen hk =>
      have hlead := verhogen_leads hk
      refine ⟨hother rfl (by decide) ?_, hlead.loaded⟩
      rw [hctx rfl (by decide) (by decide) (by decide), hlead.pS, hsave]
  | ioWait hk =>
      refine ⟨hother rfl (by decide) ?_, (hwaits (waitForIo_leads hk)).2⟩
      rw [hctx rfl (by decide) (by decide) (by decide), (hwaits (waitForIo_leads hk)).1]
  | clockWait hk =>
      refine ⟨hother rfl (by decide) ?_, (hwaits (waitForClock_leads hk)).2⟩
      rw [hctx rfl (by decide) (by decide) (by decide), (hwaits (waitForClock_leads hk)).1]
  | getTime hk =>
      have hlead := getCpuTime_leads hw (saveState (k.entered saved hw) cur) cur
      rw [← hk] at hlead
      refine ⟨hother rfl (by decide) ?_, hlead.loaded⟩
      have htime : x.after.pTime cur = _ := congrFun hlead.pTime cur
      simp only [Trans.context, if_neg hnint, hnum, show ¬ getTime = createProcess by decide,
        if_false, if_true, htime, hlead.pS]
      simp [Kernel.reported, Kernel.setState, Kernel.charge, Kernel.addTime, hsave]
  | getSupportPtr hk =>
      have hlead := getSupportData_leads (saveState (k.entered saved hw) cur) cur
      rw [← hk] at hlead
      refine ⟨hother rfl (by decide) ?_, hlead.loaded⟩
      simp only [Trans.context, if_neg hnint, hnum, show ¬ getSupportPtr = createProcess by decide,
        show ¬ getSupportPtr = getTime by decide, if_false, if_true, hlead.pS]
      simp [Kernel.setState, hsave]
      rfl
  | passup hpass _ => exact absurd hn hpass

end Rep

/-! ## Runs -/

theorem Rep.step_contexts {k k' : Kernel Queues} {c : Core} {e : Event} (h : Rep k c)
    (hs : Step k e k') (he : e.Nucleus) (hl : Loaded k) :
    k'.pS = (⟨k, e, k'⟩ : Trans Queues).contexts k.pS ∧ Loaded k' := by
  obtain ⟨fuel, hs⟩ := hs
  cases e with
  | store a v =>
      obtain ⟨-, hs⟩ := Option.ite_none_right_eq_some.mp hs
      obtain rfl := Option.some.inj hs
      exact ⟨rfl, hl⟩
  | refill saved badVAddr hw => exact he.elim
  | exception saved hw =>
      obtain ⟨htakes, hs⟩ := Option.ite_none_right_eq_some.mp hs
      unfold handleExceptions at hs
      rcases he with hint | ⟨hsys, hm, hn⟩
      · simp only [if_pos hint] at hs
        exact h.interrupt_contexts hint hs
      · have hb := busy_of_takesException htakes (by rw [hsys]; decide)
        simp only [hsys, show ¬ excSys = excInt by decide,
          show ¬ (excSys = excMod ∨ excSys = excTlbl ∨ excSys = excTlbs) by decide,
          show ¬ (excSys = excAdel ∨ excSys = excAdes ∨ excSys = excIbe ∨ excSys = excDbe) by decide,
          if_false, if_true] at hs
        exact h.call_contexts hb hsys hm hn hs

/-- The process is ready or blocked. -/
def Kernel.Waiting (k : Kernel Queues) (p : PcbPtr) : Prop :=
  p ∈ k.q.readyList ∨ p ∈ k.q.blockedList

/-- Of a process that waits, only a completion that wakes it changes the state. -/
theorem Rep.step_waiting {k k' : Kernel Queues} {c : Core} {e : Event} {p : PcbPtr}
    (h : Rep k c) (hs : Step k e k') (he : e.Nucleus) (hl : Loaded k) (hp : k.Waiting p) :
    k'.pS p = k.pS p ∨ (⟨k, e, k'⟩ : Trans Queues).woken = some p ∧
      k'.pS p = (k.pS p).setV0 (⟨k, e, k'⟩ : Trans Queues).status := by
  have hplaced : c.Placed p := by
    rcases hp with hp | hp
    · exact .inl (h.queues.readyList_eq ▸ hp)
    · exact .inr ((h.queues.mem_blockedList p).mp hp)
  have hfree : p ∉ k.q.freeList :=
    h.queues.freeList_eq ▸ h.inv.not_free (hplaced.imp_right .inl)
  obtain ⟨fuel, d, hnext, -⟩ := h.step hs
  have hm := (Core.next_outcome hnext).1
  have hcur : k.currentProcess ≠ some p := by
    intro hcur
    obtain ⟨-, hr, hb⟩ := h.inv.detached hm (h.current.trans hcur)
    rcases hplaced with hp | hp
    · exact hr hp
    · exact hp hb
  have hcreated : (⟨k, e, k'⟩ : Trans Queues).created ≠ some p := by
    unfold Trans.created
    split
    · exact fun hhead => hfree (List.mem_of_head? hhead)
    · exact nofun
  rw [(h.step_contexts hs he hl).1]
  cases e with
  | store a v => exact .inl rfl
  | refill saved badVAddr hw => exact .inl rfl
  | exception saved hw =>
      simp only [Trans.contexts, if_neg hcur, if_neg hcreated]
      split
      next hw => exact .inr ⟨hw, rfl⟩
      · exact .inl rfl

theorem Run.contexts_eq {k₀ k : Kernel Queues} {tr : List (Trans Queues)} (h₀ : Boot k₀)
    (h : Run k₀ tr k) (hn : ∀ x ∈ tr, x.event.Nucleus) :
    k.pS = contexts k₀ tr ∧ Loaded k ∧ (∃ c, Rep k c) ∧ ∀ x ∈ tr, ∀ p, x.before.Waiting p →
      x.after.pS p = x.before.pS p ∨
        x.woken = some p ∧ x.after.pS p = (x.before.pS p).setV0 x.status := by
  induction h with
  | nil =>
      obtain ⟨m, hw, hboot⟩ := h₀
      obtain ⟨k, hk, hrep⟩ := main_rep m hw
      obtain rfl : k₀ = k := Option.some.inj (hboot.symm.trans hk)
      obtain ⟨k₁, -, hsched⟩ := Option.bind_eq_some_iff.mp ((main_eq m hw).symm.trans hboot)
      exact ⟨rfl, (scheduler_leads hsched).loaded, ⟨_, hrep⟩, by simp⟩
  | @snoc tr k e k' _ hstep ih =>
      obtain ⟨hpS, hl, ⟨c, hc⟩, hall⟩ := ih fun x hx => hn x (List.mem_append_left _ hx)
      have he : e.Nucleus := hn ⟨k, e, k'⟩ (by simp)
      obtain ⟨hpS', hl'⟩ := hc.step_contexts hstep he hl
      obtain ⟨fuel, d, -, hd⟩ := hc.step hstep
      refine ⟨?_, hl', ⟨d, hd⟩, fun x hx p hp => ?_⟩
      · rw [contexts_concat, hpS', hpS]
      · rcases List.mem_append.mp hx with hx | hx
        · exact hall x hx p hp
        · obtain rfl := List.mem_singleton.mp hx
          exact hc.step_waiting hstep he hl hp

/-- In every run of nucleus calls and interrupts, a process is resumed with
the state its history tells, `p_s` holds this state, and nothing changes it
while the process is ready or blocked but the completion that wakes it. -/
theorem resumed_from_context {k₀ k : Kernel Queues} {tr : List (Trans Queues)} (h₀ : Boot k₀)
    (h : Run k₀ tr k) (hn : ∀ x ∈ tr, x.event.Nucleus) :
    (∀ s, k.cpu = .running s → ∃ p, k.currentProcess = some p ∧ s = contexts k₀ tr p) ∧
      k.pS = contexts k₀ tr ∧ ∀ x ∈ tr, ∀ p, x.before.Waiting p →
        x.after.pS p = x.before.pS p ∨
          x.woken = some p ∧ x.after.pS p = (x.before.pS p).setV0 x.status := by
  obtain ⟨hpS, hl, -, hall⟩ := Run.contexts_eq h₀ h hn
  exact ⟨hpS ▸ hl, hpS, hall⟩

/-- The state the processor has been loaded with. -/
def Cpu.state : Cpu → Option State
  | .running s => some s
  | .context _ | .waiting | .halted | .panicked => none

theorem Cpu.exists_of_state {cpu : Cpu} {P : State → Bool} (h : cpu.state.any P = true) :
    ∃ s, cpu = .running s ∧ P s = true := by
  cases cpu with
  | running s => exact ⟨s, rfl, h⟩
  | context _ | waiting | halted | panicked => exact nomatch h

/-- The first process waits for a disk while the second runs, until the disk
is done and the second has used up its time. -/
def diskScript : List Event := [callCreate, callWait 3 0, deviceDone 3 0, pltTick]

theorem resumed_from_context_script : ∃ k₀ tr k s, Boot k₀ ∧ Run k₀ tr k ∧
    k.cpu = .running s ∧ s = contexts k₀ tr 0 ∧ s.regV0 = ready ∧ s.pcEpc = 4 := by
  have hany : (Script.eval walkFuel .zero .zero diskScript).any (fun x =>
      x.trace.all (fun y => y.event.Nucleus) ∧ x.final.currentProcess = some 0 ∧
        x.final.cpu.state.any (fun s => s.regV0 = ready ∧ s.pcEpc = 4)) = true := by
    decide +kernel
  obtain ⟨x, hx, h⟩ := Script.exists_of_any hany
  obtain ⟨hall, hcur, hstate⟩ := of_decide_eq_true h
  obtain ⟨hboot, hrun, -⟩ := Script.run hx
  obtain ⟨s, hs, hv⟩ := Cpu.exists_of_state hstate
  obtain ⟨hload, -⟩ := resumed_from_context hboot hrun fun y hy =>
    of_decide_eq_true (List.all_eq_true.mp hall y hy)
  obtain ⟨p, hp, hctx⟩ := hload s hs
  obtain rfl : p = 0 := Option.some.inj (hp.symm.trans hcur)
  exact ⟨x.start, x.trace, x.final, s, hboot, hrun, hs, hctx, of_decide_eq_true hv⟩

/-- The first process waits on the semaphore of the disk by `PASSEREN`. -/
def passerenScript : List Event :=
  [callCreate, callP (Memory.zero.layout.semAdd 0), deviceDone 3 0, pltTick]

/-- It had `0` in `v0` at its last exception, which was no `IOWAIT`, and is
resumed with the status of the disk. -/
theorem resumed_passerenScript : ∃ k₀ tr k s saved, Boot k₀ ∧ Run k₀ tr k ∧
    tr.map Trans.event = passerenScript ∧ (∀ x ∈ tr, x.event.Nucleus) ∧
      (∃ x ∈ tr, x.before.running = some 0 ∧ x.event = .exception saved .zero ∧
        saved.regA0 = passerenCall) ∧
      (tr.drop 2).all (fun x => x.before.running = some 1) ∧
      k.currentProcess = some 0 ∧ k.cpu = .running s ∧ saved.regV0 = 0 ∧ s.regV0 = ready := by
  have hany : (Script.eval walkFuel .zero .zero passerenScript).any (fun x =>
      x.trace.all (fun y => y.event.Nucleus) ∧ x.final.currentProcess = some 0 ∧
        (x.trace[1]?.any fun y => y.before.running = some 0) ∧
        (x.trace.drop 2).all (fun y => y.before.running = some 1) ∧
        x.final.cpu.state.any (fun s => s.regV0 = ready)) = true := by
    decide +kernel
  obtain ⟨x, hx, h⟩ := Script.exists_of_any hany
  obtain ⟨hall, hcur, hrun1, hother, hstate⟩ := of_decide_eq_true h
  obtain ⟨hboot, hrun, hevents⟩ := Script.run hx
  obtain ⟨s, hs, hv⟩ := Cpu.exists_of_state hstate
  obtain ⟨y, hy, hy0⟩ := (Option.any_eq_true _ _).mp hrun1
  have hev : y.event = callP (Memory.zero.layout.semAdd 0) := by
    have hmap := congrArg (·[1]?) hevents
    simp only [List.getElem?_map, hy, Option.map_some, passerenScript] at hmap
    exact Option.some.inj hmap
  refine ⟨x.start, x.trace, x.final, s, callState passerenCall (Memory.zero.layout.semAdd 0) 0 0,
    hboot, hrun, hevents, fun z hz => of_decide_eq_true (List.all_eq_true.mp hall z hz),
    ⟨y, List.mem_of_getElem? hy, of_decide_eq_true hy0, hev, rfl⟩, hother, hcur, hs, rfl,
    of_decide_eq_true hv⟩

end Pandos
