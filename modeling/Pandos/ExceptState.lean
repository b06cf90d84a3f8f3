/-
# `Pandos.ExceptState` — who writes a support structure

The nucleus writes to a support structure in `passupOrDie` only, and there
only to the entry of `sup_exceptState` the exception belongs to
(`step_supp`).  So nothing that happens while a service is under way touches
the state it was called with, up to the next exception of its kind
(`step_generalExcept`): its own system calls, the interrupts that come in
between and the page faults on the memory it works on.
-/
import Pandos.Books
import Pandos.Passup

namespace Pandos

open Kernel Simulation

section

variable {Q : Type} [QueueOps Q] {k k' d : Kernel Q} {hw : Hw} {fuel : Nat} {cur : PcbPtr}

/-! ## System calls -/

theorem createProcessCall_supp (h : createProcessCall hw k cur = some k') : k'.supp = k.supp := by
  obtain ⟨⟨tmp, k₁⟩, hal, h⟩ := Option.bind_eq_some_iff.mp h
  obtain ⟨⟨r, q⟩, -, hal⟩ := Option.bind_eq_some_iff.mp hal
  cases r with
  | none =>
      obtain ⟨rfl, rfl⟩ := Prod.mk.inj (Option.some.inj hal)
      obtain rfl := Option.some.inj h
      rfl
  | some tmp =>
      obtain ⟨rfl, rfl⟩ := Prod.mk.inj (Option.some.inj hal)
      obtain ⟨-, h⟩ := guard_bind_eq_some.mp h
      obtain ⟨k₂, hins, h⟩ := Option.bind_eq_some_iff.mp h
      obtain ⟨t, -, h⟩ := Option.bind_eq_some_iff.mp h
      obtain rfl := Option.some.inj h
      have hu := insertProcQReady_untouched hins
      exact hu.supp

theorem terminateProcess_supp (h : terminateProcess fuel hw k cur = some k') :
    k'.supp = k.supp := by
  obtain ⟨k₁, h₁, h⟩ := Option.bind_eq_some_iff.mp h
  exact (scheduler_keeps h).1.trans (terminateProcessRec_untouched h₁).supp

theorem blockCurrentProcessAt_supp {sem : Word}
    (h : (blockCurrentProcessAt hw k sem cur).bind (scheduler hw) = some k') :
    k'.supp = k.supp := by
  obtain ⟨k₁, h₁, h₂⟩ := Option.bind_eq_some_iff.mp h
  obtain ⟨⟨b, q⟩, -, ⟨⟩⟩ := Option.bind_eq_some_iff.mp h₁
  exact (scheduler_keeps h₂).1

theorem passeren_supp (h : passeren hw k cur = some k') : k'.supp = k.supp := by
  obtain ⟨-, h⟩ := guard_bind_eq_some.mp h
  dsimp only at h
  split at h
  · have hb := blockCurrentProcessAt_supp h
    exact hb
  · obtain rfl := Option.some.inj h
    rfl

theorem verhogen_supp (h : verhogen k cur = some k') : k'.supp = k.supp := by
  obtain ⟨-, h⟩ := guard_bind_eq_some.mp h
  obtain ⟨⟨tmp, q⟩, -, h⟩ := Option.bind_eq_some_iff.mp h
  obtain ⟨k₁, hk₁, h⟩ := Option.bind_eq_some_iff.mp h
  obtain rfl := Option.some.inj h
  have hu := wake_untouched hk₁
  exact hu.supp

theorem waitForIo_supp (h : waitForIo hw k cur = some k') : k'.supp = k.supp := by
  unfold waitForIo at h
  dsimp only at h
  split at h
  · obtain rfl := Option.some.inj h
    rfl
  · obtain ⟨-, h⟩ := guard_bind_eq_some.mp h
    have hb := blockCurrentProcessAt_supp h
    exact hb

theorem waitForClock_supp (h : waitForClock hw k cur = some k') : k'.supp = k.supp := by
  unfold waitForClock at h
  dsimp only at h
  split at h
  · have hb := blockCurrentProcessAt_supp h
    exact hb
  · obtain rfl := Option.some.inj h
    rfl

/-! ## Interrupts -/

theorem resumeAfterInterrupt_supp (h : resumeAfterInterrupt hw k = some k') :
    k'.supp = k.supp := by
  unfold resumeAfterInterrupt at h
  split at h
  · obtain rfl := Option.some.inj h
    rfl
  · exact (scheduler_keeps h).1

theorem handlePLTInterrupt_supp (h : handlePLTInterrupt hw k = some k') : k'.supp = k.supp := by
  obtain ⟨sh, q⟩ := k
  cases hcur : sh.currentProcess with
  | some cur =>
      simp only [handlePLTInterrupt, setTimer, hcur] at h
      obtain ⟨k₁, hins, h⟩ := Option.bind_eq_some_iff.mp h
      have hu := insertProcQReady_untouched hins
      exact (scheduler_keeps h).1.trans hu.supp
  | none =>
      simp only [handlePLTInterrupt, setTimer, hcur] at h
      obtain rfl := Option.some.inj h
      rfl

theorem handleDeviceInterrupt_supp {line : Word} (h : handleDeviceInterrupt hw k line = some k') :
    k'.supp = k.supp := by
  unfold handleDeviceInterrupt at h
  dsimp only at h
  split at h
  · obtain rfl := Option.some.inj h
    rfl
  · obtain ⟨k₁, hrel, h⟩ := Option.bind_eq_some_iff.mp h
    obtain rfl := Option.some.inj h
    rcases releaseSemAndUpdateStatus_untouched hrel with ⟨-, hu⟩ | ⟨-, tmp, q, -, hu⟩
    · have hsupp := hu.supp
      exact hsupp
    · have hsupp := hu.supp
      cases tmp with
      | none | some _ => exact hsupp

theorem handleInterrupts_supp (h : handleInterrupts hw k = some k') : k'.supp = k.supp := by
  unfold handleInterrupts at h
  split at h
  · exact resumeAfterInterrupt_supp h
  · split at h
    · exact handlePLTInterrupt_supp h
    · split at h
      · obtain ⟨d, hd, h⟩ := Option.bind_eq_some_iff.mp h
        have hu := handleIntervalTimerInterrupt_untouched hd
        exact (resumeAfterInterrupt_supp h).trans hu.supp
      · obtain ⟨d, hd, h⟩ := Option.bind_eq_some_iff.mp h
        exact (resumeAfterInterrupt_supp h).trans (handleDeviceInterrupt_supp hd)

/-! ## Steps -/

/-- An exception of type `t` has been passed up, unless the process has no
support structure. -/
def SavedUp (k k' : Kernel Q) (saved : State) (t : Fin 2) : Prop :=
  k'.supp = k.supp ∨ ∃ cur, k.currentProcess = some cur ∧
    let a := k.pSupportStruct cur
    k'.supp = Function.update k.supp a { k.supp a with
      supExceptState := Function.update (k.supp a).supExceptState t saved }

omit [QueueOps Q] in
theorem SavedUp.congr {saved : State} {t : Fin 2} (h : SavedUp d k' saved t)
    (hcur : d.currentProcess = k.currentProcess) (hstruct : d.pSupportStruct = k.pSupportStruct)
    (hsupp : d.supp = k.supp) : SavedUp k k' saved t := by
  rw [SavedUp, hcur, hstruct, hsupp] at h
  exact h

theorem passupOrDie_savedUp {t : Fin 2} (h : passupOrDie fuel hw k t = some k') :
    SavedUp k k' k.biosDataPage t := by
  obtain ⟨cur, hcur, h⟩ := Option.bind_eq_some_iff.mp h
  dsimp only at h
  split at h
  · obtain rfl := Option.some.inj h
    rw [SavedUp, copyState_eq]
    exact .inr ⟨cur, hcur, rfl⟩
  · have hterm := terminateProcess_supp h
    exact .inl hterm

theorem mem_nucleusCalls {n : Word} (h1 : 1 ≤ n.toNat) (h8 : n.toNat ≤ 8) : n ∈ nucleusCalls := by
  have hall : ∀ i : Fin 8, BitVec.ofNat 32 (i + 1) ∈ nucleusCalls := by decide
  have hmem := hall ⟨n.toNat - 1, by omega⟩
  rwa [show n.toNat - 1 + 1 = n.toNat by omega, BitVec.ofNat_toNat, BitVec.setWidth_eq] at hmem

/-- A call that is served by none of the eight is passed up. -/
theorem handleNucleousSystemcalls_savedUp (h : handleNucleousSystemcalls fuel hw k = some k') :
    k'.supp = k.supp ∨ ¬ nucleousCall k.biosDataPage ∧ SavedUp k k' k.biosDataPage generalExcept := by
  rcases eq_or_ne (k.biosDataPage.status &&& userPOn) 0 with hm | hm
  · obtain ⟨cur, hcur, hserved⟩ := handleNucleousSystemcalls_served hm h
    generalize hn : k.biosDataPage.regA0 = n at hserved
    have hself : (saveState k cur).supp = k.supp := rfl
    cases hserved with
    | create h => exact .inl ((createProcessCall_supp h).trans hself)
    | terminate h => exact .inl ((terminateProcess_supp h).trans hself)
    | passeren h => exact .inl ((passeren_supp h).trans hself)
    | verhogen h => exact .inl ((verhogen_supp h).trans hself)
    | ioWait h => exact .inl ((waitForIo_supp h).trans hself)
    | clockWait h => exact .inl ((waitForClock_supp h).trans hself)
    | getTime h | getSupportPtr h =>
        subst h
        exact .inl rfl
    | passup hnot h =>
        have hup := (passupOrDie_savedUp h).congr (k := k) rfl rfl rfl
        have hsaved : (saveState k cur).biosDataPage = k.biosDataPage := rfl
        rw [hsaved] at hup
        refine .inr ⟨?_, hup⟩
        rintro ⟨-, h1, h8⟩
        rw [hn] at h1 h8
        exact hnot (mem_nucleusCalls h1 h8)
  · unfold handleNucleousSystemcalls at h
    rw [if_pos hm] at h
    exact .inr ⟨fun hcall => hm hcall.1, passupOrDie_savedUp h⟩

/-- The nucleus writes to a support structure when it passes an exception up,
and then the state it has been given. -/
theorem step_supp {e : Event} (h : step fuel k e = some k') :
    k'.supp = k.supp ∨ ∃ saved hw t, e = .exception saved hw ∧ passedUp saved = some t ∧
      SavedUp k k' saved t := by
  cases e with
  | store a v =>
      obtain ⟨-, h⟩ := Option.ite_none_right_eq_some.mp h
      obtain rfl := Option.some.inj h
      exact .inl rfl
  | refill saved badVAddr hw =>
      obtain ⟨-, h⟩ := Option.ite_none_right_eq_some.mp h
      obtain ⟨cur, -, h⟩ := Option.bind_eq_some_iff.mp h
      obtain ⟨-, h⟩ := guard_bind_eq_some.mp h
      refine .inl ?_
      split at h
      · have hterm := terminateProcess_supp h
        exact hterm
      · obtain rfl := Option.some.inj h
        rfl
  | exception saved hw =>
      obtain ⟨-, h⟩ := Option.ite_none_right_eq_some.mp h
      have hpass : ∀ {t}, passupOrDie fuel hw (k.entered saved hw) t = some k' →
          SavedUp k k' saved t := fun h => passupOrDie_savedUp h
      unfold handleExceptions at h
      dsimp only at h
      split at h
      · exact .inl (handleInterrupts_supp (k := k.entered saved hw) h)
      next hint =>
        split at h
        next hpg =>
          refine .inr ⟨saved, hw, pgFaultExcept, rfl, ?_, hpass h⟩
          simp only [passedUp, if_pos hpg]
        next hpg =>
          split at h
          next haddr =>
            refine .inr ⟨saved, hw, generalExcept, rfl, ?_, hpass h⟩
            simp only [passedUp, if_neg hpg, if_pos haddr]
          next haddr =>
            split at h
            next hsys =>
              rcases handleNucleousSystemcalls_savedUp (k := k.entered saved hw) h with
                hsupp | ⟨hcall, hup⟩
              · exact .inl hsupp
              · refine .inr ⟨saved, hw, generalExcept, rfl, ?_, hup⟩
                simp only [passedUp, if_neg hpg, if_neg haddr, if_pos hsys, if_neg hcall]
            next hsys =>
              split at h
              next hbp =>
                refine .inr ⟨saved, hw, generalExcept, rfl, ?_, hpass h⟩
                simp only [passedUp, if_neg hpg, if_neg haddr, if_neg hsys, if_pos hbp]
              · cases h

/-- Between two general exceptions the state of the first stays where the
nucleus has put it. -/
theorem step_generalExcept {e : Event} (h : step fuel k e = some k')
    (he : ∀ saved hw, e = .exception saved hw → passedUp saved ≠ some generalExcept) (a : Word) :
    (k'.supp a).supExceptState generalExcept = (k.supp a).supExceptState generalExcept := by
  rcases step_supp h with hsupp | ⟨saved, hw, t, rfl, ht, hup⟩
  · rw [hsupp]
  · rcases hup with hsupp | ⟨cur, -, hsupp⟩
    · rw [hsupp]
    · have hne : generalExcept ≠ t := fun heq => he saved hw rfl (heq ▸ ht)
      rw [hsupp]
      rcases eq_or_ne a (k.pSupportStruct cur) with rfl | ha
      · rw [Function.update_self]
        exact Function.update_of_ne hne ..
      · rw [Function.update_of_ne ha]

end

end Pandos
