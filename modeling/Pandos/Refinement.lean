/-
# `Pandos.Refinement` — the nucleus over lists simulates the nucleus over pointers

`KSim c a`: the two states agree on everything but the queues, and the
pointer structures of `c` hold the lists of `a`.  Every handler keeps this
relation, because it touches the queues through `QueueOps` only; the proofs
follow the handlers' text.

No handler looks at the TLB either.  So the proofs are about any two kinds of
queues whose operations agree (`QueueSim`), and about states that may differ
in the TLB (`Sim`).  Lists and pointers are one instance; the other compares
the nucleus with itself under another TLB.
-/
import Pandos.Fifos
import Pandos.Machine

namespace Pandos

open Simulation Kernel

/-! ## States that are alike -/

/-- The same with another TLB. -/
def Shared.withTlb (sh : Shared) (tlb : Fin tlbSize → PteEntry) (i : Fin tlbSize) : Shared :=
  { sh with tlb := tlb, tlbIndex := i }

section

variable {Q Q' : Type} [QueueOps Q] [QueueOps Q']

/-- Results that carry the same value, and related states. -/
def Pairs {α σ τ : Type} (R : σ → τ → Prop) (x : α × σ) (y : α × τ) : Prop := x.1 = y.1 ∧ R x.2 y.2

/-- The operations agree on related queues. -/
class QueueSim (R : Q → Q' → Prop) : Prop where
  pSemAdd : ∀ {q f}, R q f → ∀ p, QueueOps.pSemAdd q p = QueueOps.pSemAdd f p
  allocPcbRing : ∀ {q f}, R q f →
    Refines (Pairs R) (QueueOps.allocPcbRing q) (QueueOps.allocPcbRing f)
  freePcbRing : ∀ {q f}, R q f → ∀ p,
    Refines R (QueueOps.freePcbRing q p) (QueueOps.freePcbRing f p)
  insertReady : ∀ {q f}, R q f → ∀ p,
    Refines R (QueueOps.insertReady q p) (QueueOps.insertReady f p)
  removeReady : ∀ {q f}, R q f →
    Refines (Pairs R) (QueueOps.removeReady q) (QueueOps.removeReady f)
  outReady : ∀ {q f}, R q f → ∀ p,
    Refines (Pairs R) (QueueOps.outReady q p) (QueueOps.outReady f p)
  insertBlocked : ∀ {q f}, R q f → ∀ s p,
    Refines (Pairs R) (QueueOps.insertBlocked q s p) (QueueOps.insertBlocked f s p)
  removeBlocked : ∀ {q f}, R q f → ∀ s,
    Refines (Pairs R) (QueueOps.removeBlocked q s) (QueueOps.removeBlocked f s)
  outBlocked : ∀ {q f}, R q f → ∀ p,
    Refines (Pairs R) (QueueOps.outBlocked q p) (QueueOps.outBlocked f p)

instance : QueueSim QRep where
  pSemAdd h p := congrFun h.pSemAdd p
  allocPcbRing h := h.allocPcbRing
  freePcbRing h := h.freePcbRing
  insertReady h := h.insertReady
  removeReady h := h.removeReady
  outReady h := h.outReady
  insertBlocked h := h.insertBlocked
  removeBlocked h := h.removeBlocked
  outBlocked h := h.outBlocked

theorem Refines.refl {α : Type} {R : α → α → Prop} (hR : ∀ a, R a a) (x : Option α) :
    Refines R x x := fun b hb => ⟨b, hb, hR b⟩

instance : QueueSim (Eq : Q → Q → Prop) where
  pSemAdd h p := by rw [h]
  allocPcbRing h := h ▸ Refines.refl (fun _ => ⟨rfl, rfl⟩) _
  freePcbRing h p := h ▸ Refines.refl (fun _ => rfl) _
  insertReady h p := h ▸ Refines.refl (fun _ => rfl) _
  removeReady h := h ▸ Refines.refl (fun _ => ⟨rfl, rfl⟩) _
  outReady h p := h ▸ Refines.refl (fun _ => ⟨rfl, rfl⟩) _
  insertBlocked h s p := h ▸ Refines.refl (fun _ => ⟨rfl, rfl⟩) _
  removeBlocked h s := h ▸ Refines.refl (fun _ => ⟨rfl, rfl⟩) _
  outBlocked h p := h ▸ Refines.refl (fun _ => ⟨rfl, rfl⟩) _

/-- The same state over related queues, and with the TLB given. -/
def Sim (R : Q → Q' → Prop) (tlb : Fin tlbSize → PteEntry) (i : Fin tlbSize) (c : Kernel Q)
    (a : Kernel Q') : Prop :=
  c.toShared = a.toShared.withTlb tlb i ∧ R c.q a.q

end

/-- The same state, over pointers and over lists. -/
def KSim (c : Kernel Queues) (a : Kernel Fifos) : Prop :=
  c.toShared = a.toShared ∧ QRep c.q a.q

/-- Results that carry a value and a state. -/
def KSimWith {α : Type} (x : α × Kernel Queues) (y : α × Kernel Fifos) : Prop :=
  x.1 = y.1 ∧ KSim x.2 y.2

/-! ## The handlers -/

namespace Sim

variable {Q Q' : Type} [QueueOps Q] [QueueOps Q'] {R : Q → Q' → Prop}
  {tlb : Fin tlbSize → PteEntry} {i : Fin tlbSize} {c : Kernel Q} {a : Kernel Q'}

section

variable [QueueSim R]

theorem freePcb (h : Sim R tlb i c a) (p : PcbPtr) :
    Refines (Sim R tlb i) (freePcb c p) (freePcb a p) := by
  obtain ⟨sh, q⟩ := c
  obtain ⟨sh', f⟩ := a
  obtain ⟨rfl, h⟩ := h
  refine (QueueSim.freePcbRing h p).bind fun q f h => ?_
  exact .pure ⟨rfl, h⟩

theorem allocPcb (h : Sim R tlb i c a) :
    Refines (Pairs (Sim R tlb i)) (allocPcb c) (allocPcb a) := by
  obtain ⟨sh, q⟩ := c
  obtain ⟨sh', f⟩ := a
  obtain ⟨rfl, h⟩ := h
  unfold Pandos.allocPcb
  refine (QueueSim.allocPcbRing h).bind ?_
  rintro ⟨p, q⟩ ⟨_, f⟩ ⟨⟨⟩, h⟩
  cases p with
  | none => exact .pure ⟨rfl, rfl, h⟩
  | some p => exact .pure ⟨rfl, rfl, h⟩

theorem insertProcQReady (h : Sim R tlb i c a) (p : PcbPtr) :
    Refines (Sim R tlb i) (insertProcQReady c p) (insertProcQReady a p) := by
  obtain ⟨sh, q⟩ := c
  obtain ⟨sh', f⟩ := a
  obtain ⟨rfl, h⟩ := h
  refine (QueueSim.insertReady h p).bind fun q f h => ?_
  exact .pure ⟨rfl, h⟩

theorem wake (tmp : Option PcbPtr) (h : Sim R tlb i c a) :
    Refines (Sim R tlb i) (wake c tmp) (wake a tmp) := by
  cases tmp with
  | none => exact .pure h
  | some tmp => exact insertProcQReady h tmp

theorem scheduler (hw : Hw) (h : Sim R tlb i c a) :
    Refines (Sim R tlb i) (scheduler hw c) (scheduler hw a) := by
  obtain ⟨sh, q⟩ := c
  obtain ⟨sh', f⟩ := a
  obtain ⟨rfl, h⟩ := h
  unfold Pandos.scheduler
  refine (QueueSim.removeReady h).bind ?_
  rintro ⟨p, q⟩ ⟨_, f⟩ ⟨⟨⟩, h⟩
  cases p with
  | some p => exact .pure ⟨rfl, h⟩
  | none =>
      refine .ite (fun _ => .pure ⟨rfl, h⟩) fun _ => ?_
      exact .ite (fun _ => .pure ⟨rfl, h⟩) fun _ => .pure ⟨rfl, h⟩

theorem createProcessCall (hw : Hw) (cur : PcbPtr) (h : Sim R tlb i c a) :
    Refines (Sim R tlb i) (createProcessCall hw c cur) (createProcessCall hw a cur) := by
  refine (allocPcb h).bind ?_
  rintro ⟨tmp, ⟨sh, q⟩⟩ ⟨_, ⟨_, f⟩⟩ ⟨⟨⟩, rfl, h⟩
  cases tmp with
  | none => exact .pure ⟨rfl, h⟩
  | some tmp =>
      refine .bind_same _ fun _ => ?_
      refine Refines.bind (R := Sim R tlb i) (insertProcQReady ?_ tmp) ?_
      · exact ⟨rfl, h⟩
      · rintro ⟨sh, q⟩ ⟨_, f⟩ ⟨rfl, h⟩
        refine .bind_same _ fun tree => ?_
        exact .pure ⟨rfl, h⟩

theorem releasePcb (h : Sim R tlb i c a) (p : PcbPtr) :
    Refines (Sim R tlb i) (releasePcb c p) (releasePcb a p) := by
  obtain ⟨sh, q⟩ := c
  obtain ⟨sh', f⟩ := a
  obtain ⟨rfl, h⟩ := h
  have hp : QueueOps.pSemAdd q p = QueueOps.pSemAdd f p := QueueSim.pSemAdd h p
  unfold Pandos.releasePcb
  simp only [hp]
  refine .ite (fun _ => ?_) fun _ => ?_
  · refine (QueueSim.outBlocked h p).bind ?_
    rintro ⟨r, q⟩ ⟨_, f⟩ ⟨⟨⟩, h⟩
    refine freePcb ?_ p
    exact ⟨rfl, h⟩
  · refine (QueueSim.outReady h p).bind ?_
    rintro ⟨r, q⟩ ⟨_, f⟩ ⟨⟨⟩, h⟩
    refine freePcb ?_ p
    exact ⟨rfl, h⟩

end

mutual

theorem terminateProcessRec [QueueSim R] : ∀ (fuel : Nat) {c : Kernel Q} {a : Kernel Q'}
    (p : PcbPtr), Sim R tlb i c a → Refines (Sim R tlb i) (terminateProcessRec fuel c p)
      (terminateProcessRec fuel a p)
  | 0, _, _, _, _ => .fail
  | fuel + 1, ⟨_, q⟩, ⟨_, f⟩, p, ⟨rfl, h⟩ => by
      refine (terminateChildren fuel p ?_).bind fun c a h => releasePcb h p
      exact ⟨rfl, h⟩

theorem terminateChildren [QueueSim R] : ∀ (fuel : Nat) {c : Kernel Q} {a : Kernel Q'}
    (p : PcbPtr), Sim R tlb i c a → Refines (Sim R tlb i) (terminateChildren fuel c p)
      (terminateChildren fuel a p)
  | 0, _, _, _, _ => .fail
  | fuel + 1, ⟨_, q⟩, ⟨_, f⟩, p, ⟨rfl, h⟩ => by
      refine .ite (fun _ => .pure ⟨rfl, h⟩) fun _ => ?_
      dsimp only
      split
      · exact terminateChildren fuel p ⟨rfl, h⟩
      · refine (terminateProcessRec fuel _ ?_).bind fun c a h => terminateChildren fuel p h
        exact ⟨rfl, h⟩

end

section

variable [QueueSim R]

theorem terminateProcess (fuel : Nat) (hw : Hw) (p : PcbPtr) (h : Sim R tlb i c a) :
    Refines (Sim R tlb i) (terminateProcess fuel hw c p) (terminateProcess fuel hw a p) :=
  (terminateProcessRec fuel p h).bind fun _ _ h => scheduler hw h

theorem blockCurrentProcessAt (hw : Hw) (sem : Word) (cur : PcbPtr) (h : Sim R tlb i c a) :
    Refines (Sim R tlb i) (blockCurrentProcessAt hw c sem cur)
      (blockCurrentProcessAt hw a sem cur) := by
  obtain ⟨sh, q⟩ := c
  obtain ⟨sh', f⟩ := a
  obtain ⟨rfl, h⟩ := h
  refine (QueueSim.insertBlocked h sem cur).bind ?_
  rintro ⟨r, q⟩ ⟨_, f⟩ ⟨⟨⟩, h⟩
  exact .pure ⟨rfl, h⟩

/-- Blocking and dispatching. -/
theorem block_schedule (hw : Hw) (sem : Word) (cur : PcbPtr) (h : Sim R tlb i c a) :
    Refines (Sim R tlb i) (do Pandos.scheduler hw (← Pandos.blockCurrentProcessAt hw c sem cur))
      (do Pandos.scheduler hw (← Pandos.blockCurrentProcessAt hw a sem cur)) :=
  (blockCurrentProcessAt hw sem cur h).bind fun _ _ h => scheduler hw h

theorem passeren (hw : Hw) (cur : PcbPtr) (h : Sim R tlb i c a) :
    Refines (Sim R tlb i) (passeren hw c cur) (passeren hw a cur) := by
  obtain ⟨sh, q⟩ := c
  obtain ⟨sh', f⟩ := a
  obtain ⟨rfl, h⟩ := h
  refine .bind_same _ fun _ => ?_
  refine .ite (fun _ => ?_) fun _ => .pure ⟨rfl, h⟩
  exact block_schedule hw _ cur ⟨rfl, h⟩

theorem verhogen (cur : PcbPtr) (h : Sim R tlb i c a) :
    Refines (Sim R tlb i) (verhogen c cur) (verhogen a cur) := by
  obtain ⟨sh, q⟩ := c
  obtain ⟨sh', f⟩ := a
  obtain ⟨rfl, h⟩ := h
  refine .bind_same _ fun _ => ?_
  refine (QueueSim.removeBlocked h _).bind ?_
  rintro ⟨tmp, q⟩ ⟨_, f⟩ ⟨⟨⟩, h⟩
  refine Refines.bind (R := Sim R tlb i) (wake tmp ⟨rfl, h⟩) ?_
  rintro ⟨sh, q⟩ ⟨_, f⟩ ⟨rfl, h⟩
  exact .pure ⟨rfl, h⟩

theorem waitForIo (hw : Hw) (cur : PcbPtr) (h : Sim R tlb i c a) :
    Refines (Sim R tlb i) (waitForIo hw c cur) (waitForIo hw a cur) := by
  obtain ⟨sh, q⟩ := c
  obtain ⟨sh', f⟩ := a
  obtain ⟨rfl, h⟩ := h
  dsimp only [Pandos.waitForIo, Shared.withTlb]
  generalize getSemIndex _ _ _ = index
  cases index with
  | none => exact .pure ⟨rfl, h⟩
  | some deviceIndex =>
      refine .bind_same _ fun _ => ?_
      exact block_schedule hw _ cur ⟨rfl, h⟩

theorem waitForClock (hw : Hw) (cur : PcbPtr) (h : Sim R tlb i c a) :
    Refines (Sim R tlb i) (waitForClock hw c cur) (waitForClock hw a cur) := by
  obtain ⟨sh, q⟩ := c
  obtain ⟨sh', f⟩ := a
  obtain ⟨rfl, h⟩ := h
  refine .ite (fun _ => ?_) fun _ => .pure ⟨rfl, h⟩
  exact block_schedule hw _ cur ⟨rfl, h⟩

theorem sysTermProcess (fuel : Nat) (hw : Hw) (cur : PcbPtr) (h : Sim R tlb i c a) :
    Refines (Sim R tlb i) (sysTermProcess fuel hw c cur) (sysTermProcess fuel hw a cur) := by
  obtain ⟨sh, q⟩ := c
  obtain ⟨sh', f⟩ := a
  obtain ⟨rfl, h⟩ := h
  exact terminateProcess fuel hw cur ⟨rfl, h⟩

theorem passupOrDie (fuel : Nat) (hw : Hw) (t : Fin 2) (h : Sim R tlb i c a) :
    Refines (Sim R tlb i) (passupOrDie fuel hw c t) (passupOrDie fuel hw a t) := by
  obtain ⟨sh, q⟩ := c
  obtain ⟨sh', f⟩ := a
  obtain ⟨rfl, h⟩ := h
  refine .bind_same _ fun cur => ?_
  refine .ite (fun _ => .pure ⟨rfl, h⟩) fun _ => ?_
  exact sysTermProcess fuel hw cur ⟨rfl, h⟩

theorem handleNucleousSystemcalls (fuel : Nat) (hw : Hw) (h : Sim R tlb i c a) :
    Refines (Sim R tlb i) (handleNucleousSystemcalls fuel hw c)
      (handleNucleousSystemcalls fuel hw a) := by
  obtain ⟨sh, q⟩ := c
  obtain ⟨sh', f⟩ := a
  obtain ⟨rfl, h⟩ := h
  refine .ite (fun _ => passupOrDie fuel hw _ ⟨rfl, h⟩) fun _ => ?_
  refine .bind_same _ fun cur => ?_
  have hsave : Sim R tlb i (saveState ⟨sh'.withTlb tlb i, q⟩ cur) (saveState ⟨sh', f⟩ cur) :=
    ⟨rfl, h⟩
  refine .ite (fun _ => createProcessCall hw cur hsave) fun _ => ?_
  refine .ite (fun _ => terminateProcess fuel hw cur hsave) fun _ => ?_
  refine .ite (fun _ => passeren hw cur hsave) fun _ => ?_
  refine .ite (fun _ => verhogen cur hsave) fun _ => ?_
  refine .ite (fun _ => waitForIo hw cur hsave) fun _ => ?_
  refine .ite (fun _ => .pure ⟨rfl, h⟩) fun _ => ?_
  refine .ite (fun _ => waitForClock hw cur hsave) fun _ => ?_
  refine .ite (fun _ => .pure ⟨rfl, h⟩) fun _ => ?_
  exact passupOrDie fuel hw _ hsave

theorem releaseSemAndUpdateStatus (deviceNo status : Word) (h : Sim R tlb i c a) :
    Refines (Sim R tlb i) (releaseSemAndUpdateStatus c deviceNo status)
      (releaseSemAndUpdateStatus a deviceNo status) := by
  obtain ⟨sh, q⟩ := c
  obtain ⟨sh', f⟩ := a
  obtain ⟨rfl, h⟩ := h
  refine .bind_same _ fun _ => ?_
  refine .ite (fun _ => ?_) fun _ => .pure ⟨rfl, h⟩
  refine (QueueSim.removeBlocked h _).bind ?_
  rintro ⟨tmp, q⟩ ⟨_, f⟩ ⟨⟨⟩, h⟩
  cases tmp with
  | none => exact .pure ⟨rfl, h⟩
  | some tmp =>
      refine Refines.bind (R := Sim R tlb i) (insertProcQReady ?_ tmp) ?_
      · exact ⟨rfl, h⟩
      · rintro ⟨sh, q⟩ ⟨_, f⟩ ⟨rfl, h⟩
        exact .pure ⟨rfl, h⟩

theorem handlePLTInterrupt (hw : Hw) (h : Sim R tlb i c a) :
    Refines (Sim R tlb i) (handlePLTInterrupt hw c) (handlePLTInterrupt hw a) := by
  obtain ⟨sh, q⟩ := c
  obtain ⟨sh', f⟩ := a
  obtain ⟨rfl, h⟩ := h
  dsimp only [Pandos.handlePLTInterrupt, setTimer, Shared.withTlb]
  cases sh'.currentProcess with
  | none => exact .pure ⟨rfl, h⟩
  | some cur =>
      refine (insertProcQReady ?_ cur).bind fun c a h => scheduler hw h
      exact ⟨rfl, h⟩

theorem clockLoop : ∀ (fuel : Nat) {c : Kernel Q} {a : Kernel Q'}, Sim R tlb i c a →
    Refines (Sim R tlb i) (clockLoop fuel c) (clockLoop fuel a)
  | 0, _, _, _ => .fail
  | fuel + 1, ⟨_, q⟩, ⟨_, f⟩, ⟨rfl, h⟩ => by
      refine (QueueSim.removeBlocked h _).bind ?_
      rintro ⟨tmp, q⟩ ⟨_, f⟩ ⟨⟨⟩, h⟩
      cases tmp with
      | none => exact .pure ⟨rfl, h⟩
      | some tmp =>
          refine Refines.bind (R := Sim R tlb i) (insertProcQReady ?_ tmp) ?_
          · exact ⟨rfl, h⟩
          · rintro ⟨sh, q⟩ ⟨_, f⟩ ⟨rfl, h⟩
            refine clockLoop fuel ?_
            exact ⟨rfl, h⟩

theorem handleIntervalTimerInterrupt (h : Sim R tlb i c a) :
    Refines (Sim R tlb i) (handleIntervalTimerInterrupt c) (handleIntervalTimerInterrupt a) := by
  obtain ⟨sh, q⟩ := c
  obtain ⟨sh', f⟩ := a
  obtain ⟨rfl, h⟩ := h
  refine Refines.bind (R := Sim R tlb i) (clockLoop _ ?_) ?_
  · exact ⟨rfl, h⟩
  · rintro ⟨sh, q⟩ ⟨_, f⟩ ⟨rfl, h⟩
    exact .pure ⟨rfl, h⟩

theorem handleDeviceInterrupt (hw : Hw) (line : Word) (h : Sim R tlb i c a) :
    Refines (Sim R tlb i) (handleDeviceInterrupt hw c line) (handleDeviceInterrupt hw a line) := by
  obtain ⟨sh, q⟩ := c
  obtain ⟨sh', f⟩ := a
  obtain ⟨rfl, h⟩ := h
  dsimp only [Pandos.handleDeviceInterrupt, Shared.withTlb]
  generalize getSemIndex _ _ _ = index
  cases index with
  | none => exact .pure ⟨rfl, h⟩
  | some semIndex =>
      refine Refines.bind (R := Sim R tlb i) (releaseSemAndUpdateStatus _ _ ?_) ?_
      · exact ⟨rfl, h⟩
      · rintro ⟨sh, q⟩ ⟨_, f⟩ ⟨rfl, h⟩
        exact .pure ⟨rfl, h⟩

theorem resumeAfterInterrupt (hw : Hw) (h : Sim R tlb i c a) :
    Refines (Sim R tlb i) (resumeAfterInterrupt hw c) (resumeAfterInterrupt hw a) := by
  obtain ⟨sh, q⟩ := c
  obtain ⟨sh', f⟩ := a
  obtain ⟨rfl, h⟩ := h
  dsimp only [Pandos.resumeAfterInterrupt]
  have hcur : (sh'.withTlb tlb i).currentProcess = sh'.currentProcess := rfl
  rw [hcur]
  cases sh'.currentProcess with
  | none => exact scheduler hw ⟨rfl, h⟩
  | some cur => exact .pure ⟨rfl, h⟩

theorem handleInterrupts (hw : Hw) (h : Sim R tlb i c a) :
    Refines (Sim R tlb i) (handleInterrupts hw c) (handleInterrupts hw a) := by
  obtain ⟨sh, q⟩ := c
  obtain ⟨sh', f⟩ := a
  obtain ⟨rfl, h⟩ := h
  dsimp only [Pandos.handleInterrupts, Shared.withTlb]
  cases pendingLine sh'.biosDataPage.cause with
  | none => exact resumeAfterInterrupt hw ⟨rfl, h⟩
  | some line =>
      refine .ite (fun _ => handlePLTInterrupt hw ⟨rfl, h⟩) fun _ => ?_
      refine .ite (fun _ => ?_) fun _ => ?_
      · refine (handleIntervalTimerInterrupt ?_).bind fun _ _ h => resumeAfterInterrupt hw h
        exact ⟨rfl, h⟩
      · refine (handleDeviceInterrupt hw _ ?_).bind fun _ _ h => resumeAfterInterrupt hw h
        exact ⟨rfl, h⟩

theorem handleExceptions (fuel : Nat) (hw : Hw) (h : Sim R tlb i c a) :
    Refines (Sim R tlb i) (handleExceptions fuel hw c) (handleExceptions fuel hw a) := by
  obtain ⟨sh, q⟩ := c
  obtain ⟨sh', f⟩ := a
  obtain ⟨rfl, h⟩ := h
  have hk : Sim R tlb i ⟨sh'.withTlb tlb i, q⟩ ⟨sh', f⟩ := ⟨rfl, h⟩
  refine .ite (fun _ => handleInterrupts hw hk) fun _ => ?_
  refine .ite (fun _ => passupOrDie fuel hw _ hk) fun _ => ?_
  refine .ite (fun _ => passupOrDie fuel hw _ hk) fun _ => ?_
  refine .ite (fun _ => handleNucleousSystemcalls fuel hw hk) fun _ => ?_
  exact .ite (fun _ => passupOrDie fuel hw _ hk) fun _ => .fail

end

end Sim

/-! ## Pointers and lists -/

namespace KSim

variable {c : Kernel Queues} {a : Kernel Fifos}

/-- The TLB is that of the list side all along. -/
theorem of_sim {α : Type} {x : Option (α × Kernel Queues)} {y : Option (α × Kernel Fifos)}
    (hxy : ∀ {tlb i}, Sim QRep tlb i c a → Refines (Pairs (Sim QRep tlb i)) x y)
    (hyy : ∀ {tlb i}, Sim Eq tlb i a a → Refines (Pairs (Sim Eq tlb i)) y y) (h : KSim c a) :
    Refines KSimWith x y := by
  rintro ⟨r, a'⟩ ha'
  obtain ⟨⟨s, c'⟩, hc', hr, hc, hq⟩ := @hxy a.tlb a.tlbIndex h _ ha'
  obtain ⟨⟨s', a''⟩, ha'', -, ha, -⟩ := @hyy a.tlb a.tlbIndex ⟨rfl, rfl⟩ _ ha'
  obtain ⟨-, rfl⟩ := Prod.mk.inj (Option.some.inj (ha'.symm.trans ha''))
  exact ⟨(s, c'), hc', hr, hc.trans ha.symm, hq⟩

/-- The same for handlers, which return a state only. -/
theorem of_sim' {x : Option (Kernel Queues)} {y : Option (Kernel Fifos)}
    (hxy : ∀ {tlb i}, Sim QRep tlb i c a → Refines (Sim QRep tlb i) x y)
    (hyy : ∀ {tlb i}, Sim Eq tlb i a a → Refines (Sim Eq tlb i) y y) (h : KSim c a) :
    Refines KSim x y := by
  intro a' ha'
  obtain ⟨c', hc', hc, hq⟩ := @hxy a.tlb a.tlbIndex h _ ha'
  obtain ⟨a'', ha'', ha, -⟩ := @hyy a.tlb a.tlbIndex ⟨rfl, rfl⟩ _ ha'
  obtain rfl := Option.some.inj (ha'.symm.trans ha'')
  exact ⟨c', hc', hc.trans ha.symm, hq⟩

theorem allocPcb (h : KSim c a) : Refines KSimWith (allocPcb c) (allocPcb a) :=
  h.of_sim Sim.allocPcb Sim.allocPcb

theorem insertProcQReady (h : KSim c a) (p : PcbPtr) :
    Refines KSim (insertProcQReady c p) (insertProcQReady a p) :=
  h.of_sim' (Sim.insertProcQReady · p) (Sim.insertProcQReady · p)

theorem scheduler (hw : Hw) (h : KSim c a) : Refines KSim (scheduler hw c) (scheduler hw a) :=
  h.of_sim' (Sim.scheduler hw) (Sim.scheduler hw)

theorem terminateProcessRec (fuel : Nat) (p : PcbPtr) (h : KSim c a) :
    Refines KSim (terminateProcessRec fuel c p) (terminateProcessRec fuel a p) :=
  h.of_sim' (Sim.terminateProcessRec fuel p) (Sim.terminateProcessRec fuel p)

theorem sysTermProcess (fuel : Nat) (hw : Hw) (cur : PcbPtr) (h : KSim c a) :
    Refines KSim (sysTermProcess fuel hw c cur) (sysTermProcess fuel hw a cur) :=
  h.of_sim' (Sim.sysTermProcess fuel hw cur) (Sim.sysTermProcess fuel hw cur)

theorem handleExceptions (fuel : Nat) (hw : Hw) (h : KSim c a) :
    Refines KSim (handleExceptions fuel hw c) (handleExceptions fuel hw a) :=
  h.of_sim' (Sim.handleExceptions fuel hw) (Sim.handleExceptions fuel hw)

theorem uTLBRefillHandler (fuel : Nat) (hw : Hw) (badVAddr : Word) (h : KSim c a) :
    Refines KSim (uTLBRefillHandler fuel hw c badVAddr) (uTLBRefillHandler fuel hw a badVAddr) := by
  obtain ⟨sh, q⟩ := c
  obtain ⟨sh', f⟩ := a
  obtain ⟨⟨⟩, h⟩ := h
  refine .bind_same _ fun cur => ?_
  refine .bind_same _ fun _ => ?_
  dsimp only
  cases getMissingPage (sh.supp (sh.pSupportStruct cur)) badVAddr with
  | none => exact sysTermProcess fuel hw cur ⟨rfl, h⟩
  | some i => exact .pure ⟨rfl, h⟩

/-- One event, over pointers and over lists. -/
theorem step (fuel : Nat) (e : Event) (h : KSim c a) :
    Refines KSim (step fuel c e) (step fuel a e) := by
  obtain ⟨sh, q⟩ := c
  obtain ⟨sh', f⟩ := a
  obtain ⟨⟨⟩, h⟩ := h
  cases e with
  | exception saved hw =>
      exact .ite (fun _ => handleExceptions fuel hw ⟨rfl, h⟩) fun _ => .fail
  | refill saved badVAddr hw =>
      exact .ite (fun _ => uTLBRefillHandler fuel hw badVAddr ⟨rfl, h⟩) fun _ => .fail
  | store s v => exact .ite (fun _ => .pure ⟨rfl, h⟩) fun _ => .fail

end KSim

end Pandos
