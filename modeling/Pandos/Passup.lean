/-
# `Pandos.Passup` — exceptions at the support level

The nucleus passes an exception up by `passupOrDie`: the saved state goes to
`sup_exceptState` and the processor to the handler `init_uproc_support` has
put into `sup_exceptContext`, which decodes the saved state once more.
`passedUp` is the decision `handleExceptions` makes, and `Proper` what should
become of the exceptions it passes up.  The two levels agree in the cases of
`Decodes` only (`proper_iff_decodes`), for the support level compares the
whole `Cause` with an exception code, and has no case for the calls it does
not know.
-/
import Pandos.Handlers
import Pandos.Ownership

namespace Pandos

/-! ## The decision of the nucleus -/

/-- The calls the nucleus serves itself. -/
def nucleousCall (s : State) : Prop :=
  s.status &&& userPOn = 0 ∧ 1 ≤ s.regA0.toNat ∧ s.regA0.toNat ≤ 8

instance (s : State) : Decidable (nucleousCall s) := inferInstanceAs (Decidable (_ ∧ _))

/-- The type as which an exception is passed up, if it is. -/
def passedUp (s : State) : Option (Fin 2) :=
  let excCode := causeGetExcCode s.cause
  if excCode = excMod ∨ excCode = excTlbl ∨ excCode = excTlbs then some pgFaultExcept
  else if excCode = excAdel ∨ excCode = excAdes ∨ excCode = excIbe ∨ excCode = excDbe then
    some generalExcept
  else if excCode = excSys then if nucleousCall s then none else some generalExcept
  else if excCode = excBp ∨ excCode = excRi ∨ excCode = excCpu ∨ excCode = excOv then
    some generalExcept
  else none

section

variable {Q : Type} [QueueOps Q] {k : Kernel Q} {cur : PcbPtr} {hw : Hw} {fuel : Nat}
  {saved : State} {t : Fin 2}

/-- What `passupOrDie` does to a process with a support structure. -/
theorem passupOrDie_support (hcur : k.currentProcess = some cur)
    (ha : k.pSupportStruct cur ≠ 0) (t : Fin 2) :
    ∃ k', passupOrDie fuel hw k t = some k' ∧
      k'.cpu = .context ((k.supp (k.pSupportStruct cur)).supExceptContext t) ∧
      (k'.supp (k.pSupportStruct cur)).supExceptState t = k.biosDataPage := by
  obtain ⟨sh, q⟩ := k
  have hcur : sh.currentProcess = some cur := hcur
  have ha : sh.pSupportStruct cur ≠ 0 := ha
  simp only [passupOrDie, hcur, if_pos ha, copyState_eq, Option.bind_eq_bind, Option.bind_some]
  exact ⟨_, rfl, rfl, by simp⟩

/-- A call the nucleus does not serve. -/
theorem handleNucleousSystemcalls_support (hcur : k.currentProcess = some cur)
    (ha : k.pSupportStruct cur ≠ 0) (hcall : ¬ nucleousCall k.biosDataPage) :
    ∃ k', handleNucleousSystemcalls fuel hw k = some k' ∧
      k'.cpu = .context ((k.supp (k.pSupportStruct cur)).supExceptContext generalExcept) ∧
      (k'.supp (k.pSupportStruct cur)).supExceptState generalExcept = k.biosDataPage := by
  unfold handleNucleousSystemcalls
  dsimp only
  split
  · exact passupOrDie_support hcur ha generalExcept
  next hmode =>
    have hne : ∀ n : Word, 1 ≤ n.toNat → n.toNat ≤ 8 → k.biosDataPage.regA0 ≠ n := by
      rintro n h1 h8 rfl
      exact hcall ⟨not_not.mp hmode, h1, h8⟩
    obtain ⟨k', hk', hcpu, hstate⟩ :=
      passupOrDie_support (k := saveState k cur) hcur ha generalExcept
    refine ⟨k', ?_, hcpu, hstate⟩
    rw [hcur]
    simp only [Option.bind_eq_bind, Option.bind_some]
    rw [if_neg (hne _ (by decide) (by decide)), if_neg (hne _ (by decide) (by decide)),
      if_neg (hne _ (by decide) (by decide)), if_neg (hne _ (by decide) (by decide)),
      if_neg (hne _ (by decide) (by decide)), if_neg (hne _ (by decide) (by decide)),
      if_neg (hne _ (by decide) (by decide)), if_neg (hne _ (by decide) (by decide))]
    exact hk'

/-- What the nucleus passes up arrives as it was saved. -/
theorem step_passedUp (hb : k.cpu.busy) (hcur : k.currentProcess = some cur)
    (ha : k.pSupportStruct cur ≠ 0) (ht : passedUp saved = some t) (fuel : Nat) (hw : Hw) :
    ∃ k', step fuel k (.exception saved hw) = some k' ∧
      k'.cpu = .context ((k.supp (k.pSupportStruct cur)).supExceptContext t) ∧
      (k'.supp (k.pSupportStruct cur)).supExceptState t = saved := by
  have htakes : takesException k.cpu saved.cause = true := by simp [takesException, hb]
  let entry : Kernel Q := { k with biosDataPage := saved, devReg := hw.devReg }
  have hpass : ∀ t, ∃ k', passupOrDie fuel hw entry t = some k' ∧
      k'.cpu = .context ((k.supp (k.pSupportStruct cur)).supExceptContext t) ∧
      (k'.supp (k.pSupportStruct cur)).supExceptState t = saved := fun t =>
    passupOrDie_support (k := entry) hcur ha t
  have hnotint : causeGetExcCode saved.cause ≠ excInt := by
    intro hint
    simp [passedUp, hint] at ht
  simp only [step, if_pos htakes, handleExceptions, if_neg hnotint]
  simp only [passedUp] at ht
  split at ht
  next h =>
    obtain rfl := Option.some.inj ht
    rw [if_pos h]
    exact hpass _
  next h =>
    rw [if_neg h]
    split at ht
    next h =>
      obtain rfl := Option.some.inj ht
      rw [if_pos h]
      exact hpass _
    next h =>
      rw [if_neg h]
      split at ht
      next hsys =>
        rw [if_pos hsys]
        obtain ⟨hcall, rfl⟩ : ¬ nucleousCall saved ∧ t = generalExcept := by
          split at ht
          · cases ht
          next hcall => exact ⟨hcall, (Option.some.inj ht).symm⟩
        exact handleNucleousSystemcalls_support (k := entry) hcur ha hcall
      next hsys =>
        rw [if_neg hsys]
        split at ht
        next h =>
          obtain rfl := Option.some.inj ht
          rw [if_pos h]
          exact hpass _
        · cases ht

end

/-! ## What should become of them -/

/-- Both ways to end a U-proc. -/
def Fate.Terminates (f : Fate) : Prop := f = .serves .terminateSupport ∨ f = .sysTerminate

/-- The calls 9..13 are served, every other trap ends the U-proc, and page
faults that are not writes to a read-only page go to the pager. -/
structure Proper (t : Fin 2) (saved : State) (f : Fate) : Prop where
  service : t = generalExcept → causeGetExcCode saved.cause = excSys →
    ∀ s : Service, s.number = saved.regA0 → f = .serves s
  unknown : t = generalExcept → causeGetExcCode saved.cause = excSys →
    (∀ s : Service, s.number ≠ saved.regA0) → f.Terminates
  trap : t = generalExcept → causeGetExcCode saved.cause ≠ excSys → f.Terminates
  modified : t = pgFaultExcept → causeGetExcCode saved.cause = excMod → f.Terminates
  fault : t = pgFaultExcept → causeGetExcCode saved.cause ≠ excMod → f = .pages
  ends : f ≠ .returns

/-- When the support level makes of a passed up exception what it should: it
is a call 9..13, or another trap with `TERMINATE` in `a0`, or a page fault. -/
def Decodes (t : Fin 2) (saved : State) : Prop :=
  if t = pgFaultExcept then causeGetExcCode saved.cause ≠ excMod
  else if causeGetExcCode saved.cause = excSys then
    9 ≤ saved.regA0.toNat ∧ saved.regA0.toNat ≤ 13
  else saved.regA0 = terminate

instance (t : Fin 2) (saved : State) : Decidable (Decodes t saved) := by
  unfold Decodes
  infer_instance

theorem Service.number_iff {a : Word} :
    (∃ s : Service, s.number = a) ↔ 9 ≤ a.toNat ∧ a.toNat ≤ 13 := by
  constructor
  · rintro ⟨s, rfl⟩
    cases s <;> decide
  · rintro ⟨h9, h13⟩
    have hval : ∀ n : Nat, a.toNat = n → a = BitVec.ofNat 32 n := by
      rintro n rfl
      simp
    have hcases : a = 9 ∨ a = 10 ∨ a = 11 ∨ a = 12 ∨ a = 13 := by
      rcases (by omega : a.toNat = 9 ∨ a.toNat = 10 ∨ a.toNat = 11 ∨ a.toNat = 12 ∨
        a.toNat = 13) with h | h | h | h | h
      · exact .inl (hval _ h)
      · exact .inr (.inl (hval _ h))
      · exact .inr (.inr (.inl (hval _ h)))
      · exact .inr (.inr (.inr (.inl (hval _ h))))
      · exact .inr (.inr (.inr (.inr (hval _ h))))
    rcases hcases with rfl | rfl | rfl | rfl | rfl
    · exact ⟨.terminateSupport, rfl⟩
    · exact ⟨.getTOD, rfl⟩
    · exact ⟨.writeToPrinter, rfl⟩
    · exact ⟨.writeToTerminal, rfl⟩
    · exact ⟨.readFromTerminal, rfl⟩

theorem handleSupportSystemcalls_number (s : Service) {saved : State} (h : s.number = saved.regA0) :
    handleSupportSystemcalls saved = .serves s := by
  simp only [handleSupportSystemcalls, ← h]
  cases s <;> rfl

theorem handleSupportSystemcalls_other {saved : State}
    (h : ∀ s : Service, s.number ≠ saved.regA0) : handleSupportSystemcalls saved = .returns := by
  have h9 : saved.regA0 ≠ terminate := (h .terminateSupport).symm
  have h10 : saved.regA0 ≠ getTod := (h .getTOD).symm
  have h11 : saved.regA0 ≠ writePrinter := (h .writeToPrinter).symm
  have h12 : saved.regA0 ≠ writeTerminal := (h .writeToTerminal).symm
  have h13 : saved.regA0 ≠ readTerminal := (h .readFromTerminal).symm
  simp only [handleSupportSystemcalls, if_neg h9, if_neg h10, if_neg h11, if_neg h12, if_neg h13]

/-- No exception that is passed up has the code of a modification as its
whole `Cause`. -/
theorem passedUp_cause {saved : State} {t : Fin 2} (h : passedUp saved = some t) :
    saved.cause ≠ excMod := by
  intro hc
  have : causeGetExcCode saved.cause = excInt := by
    rw [hc]
    decide
  simp [passedUp, this] at h

/-- The handler is the pager, or the `switch` over the calls. -/
theorem supportHandler_eq {saved : State} {t : Fin 2} (h : passedUp saved = some t)
    {st : Fin 2 → State} (hst : st t = saved) : supportHandler t st =
      if t = pgFaultExcept then .pages else handleSupportSystemcalls saved := by
  have hc := passedUp_cause h
  unfold supportHandler
  split
  next ht =>
    subst ht
    rw [handlePageFault, hst, if_neg hc]
  next ht =>
    obtain rfl : t = generalExcept := Fin.eq_one_of_ne_zero t ht
    rw [handleSupportLevelExceptions, hst, if_neg hc]

/-! ## Agreement -/

theorem proper_pages_iff {saved : State} :
    Proper pgFaultExcept saved .pages ↔ Decodes pgFaultExcept saved := by
  have hne : pgFaultExcept ≠ generalExcept := by decide
  constructor
  · intro h hmod
    rcases h.modified rfl hmod with hf | hf <;> exact nomatch hf
  · intro h
    exact ⟨fun e => absurd e hne, fun e => absurd e hne, fun e => absurd e hne,
      fun _ hmod => absurd hmod h, fun _ _ => rfl, nofun⟩

theorem proper_syscall_iff {saved : State} :
    Proper generalExcept saved (handleSupportSystemcalls saved) ↔ Decodes generalExcept saved := by
  have hne : generalExcept ≠ pgFaultExcept := by decide
  simp only [Decodes, if_neg hne]
  split
  next hsys =>
    rw [← Service.number_iff]
    constructor
    · intro h
      by_contra hnone
      exact h.ends (handleSupportSystemcalls_other (not_exists.mp hnone))
    · rintro ⟨s, hs⟩
      have hserves := handleSupportSystemcalls_number s hs
      refine ⟨fun _ _ s' hs' => handleSupportSystemcalls_number s' hs',
        fun _ _ hnone => absurd hs (hnone s), fun _ h => absurd hsys h,
        fun e => absurd e hne, fun e => absurd e hne, ?_⟩
      rw [hserves]
      exact nofun
  next hsys =>
    constructor
    · intro h
      rcases h.trap rfl hsys with hf | hf
      · by_contra h9
        by_cases hs : ∃ s : Service, s.number = saved.regA0
        · obtain ⟨s, hs⟩ := hs
          rw [handleSupportSystemcalls_number s hs] at hf
          obtain rfl := Fate.serves.inj hf
          exact h9 hs.symm
        · rw [handleSupportSystemcalls_other (not_exists.mp hs)] at hf
          exact nomatch hf
      · by_cases hs : ∃ s : Service, s.number = saved.regA0
        · obtain ⟨s, hs⟩ := hs
          rw [handleSupportSystemcalls_number s hs] at hf
          exact nomatch hf
        · exact absurd (handleSupportSystemcalls_other (not_exists.mp hs)) h.ends
    · intro h9
      have hserves := handleSupportSystemcalls_number .terminateSupport h9.symm
      rw [hserves]
      exact ⟨fun _ h => absurd h hsys, fun _ h => absurd h hsys, fun _ _ => .inl rfl,
        fun e => absurd e hne, fun e => absurd e hne, nofun⟩

/-- An exception that is passed up reaches its handler as it was saved, and
the handler does with it what it should if and only if it `Decodes` it. -/
theorem proper_iff_decodes {k : Kernel Queues} {cur : PcbPtr} {saved : State} {t : Fin 2}
    (hb : k.cpu.busy) (hcur : k.currentProcess = some cur) (ha : k.pSupportStruct cur ≠ 0)
    (ht : passedUp saved = some t) (fuel : Nat) (hw : Hw) :
    ∃ k', step fuel k (.exception saved hw) = some k' ∧
      k'.cpu = .context ((k.supp (k.pSupportStruct cur)).supExceptContext t) ∧
      (Proper t saved (supportHandler t (k'.supp (k.pSupportStruct cur)).supExceptState) ↔
        Decodes t saved) := by
  obtain ⟨k', hk', hcpu, hstate⟩ := step_passedUp hb hcur ha ht fuel hw
  refine ⟨k', hk', hcpu, ?_⟩
  rw [supportHandler_eq ht hstate]
  split
  next hpg =>
    subst hpg
    exact proper_pages_iff
  next hpg =>
    obtain rfl : t = generalExcept := Fin.eq_one_of_ne_zero t hpg
    exact proper_syscall_iff

/-- The first process creates one with a support structure, which then runs. -/
def supportedScript : List Event := [syscall createProcess 0x20100000 0x20200000 0, pltTick]

theorem supportedScript_runs : ∃ k, Reachable k ∧ k.cpu.busy ∧ k.currentProcess = some 1 ∧
    k.pSupportStruct 1 = 0x20200000 := by
  have hany : (Script.eval walkFuel .zero .zero supportedScript).any (fun x =>
      x.final.cpu.busy ∧ x.final.currentProcess = some 1 ∧
        x.final.pSupportStruct 1 = 0x20200000) = true := by
    decide +kernel
  obtain ⟨x, hx, h⟩ := Script.exists_of_any hany
  obtain ⟨hboot, hrun, -⟩ := Script.run hx
  exact ⟨x.final, ⟨_, _, hboot, hrun⟩, of_decide_eq_true h⟩

/-- It calls `WRITEPRINTER`. -/
theorem proper_iff_decodes_supportedScript : ∃ k k', Reachable k ∧
    step 0 k (syscall writePrinter 0 0 0) = some k' ∧
      Proper generalExcept (callState writePrinter 0 0 0)
        (supportHandler generalExcept (k'.supp 0x20200000).supExceptState) := by
  obtain ⟨k, hreach, hb, hcur, ha⟩ := supportedScript_runs
  have hup : passedUp (callState writePrinter 0 0 0) = some generalExcept := by decide
  obtain ⟨k', hk', -, hproper⟩ := proper_iff_decodes hb hcur (by rw [ha]; decide) hup 0 .zero
  rw [ha] at hproper
  exact ⟨k, k', hreach, hk', hproper.mpr (by decide)⟩

/-- A breakpoint with the number of a call in `a0`. -/
def breakpointState : State := { callState writePrinter 0 0 0 with cause := excBp <<< 2 }

/-- It prints, as if it were the call. -/
theorem not_proper_breakpoint : ∃ k k', Reachable k ∧
    step 0 k (.exception breakpointState .zero) = some k' ∧
      k'.cpu = .context ((k.supp 0x20200000).supExceptContext generalExcept) ∧
      passedUp breakpointState = some generalExcept ∧
      supportHandler generalExcept (k'.supp 0x20200000).supExceptState = .serves .writeToPrinter ∧
      ¬ Proper generalExcept breakpointState (.serves .writeToPrinter) := by
  obtain ⟨k, hreach, hb, hcur, ha⟩ := supportedScript_runs
  have hup : passedUp breakpointState = some generalExcept := by decide
  obtain ⟨k', hk', hcpu, hstate⟩ := step_passedUp hb hcur (by rw [ha]; decide) hup 0 .zero
  rw [ha] at hcpu hstate
  refine ⟨k, k', hreach, hk', hcpu, hup, ?_, ?_⟩
  · rw [supportHandler_eq hup hstate]
    decide
  · intro h
    rcases h.trap rfl (by decide) with hf | hf <;> exact nomatch hf

end Pandos
