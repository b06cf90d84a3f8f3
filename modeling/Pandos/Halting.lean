/-
# `Pandos.Halting` — the machine halts with its first process

`main` creates one process, and every other one descends from it
(`History.Ordered.descends`).  So where a process ends with its descendants
and with nobody else (`Trans.FamilyEnd`), `processCount` is not `0` as long as
the first process is there, and when it ends nobody is left.

That is all that makes `scheduler` call `HALT`: the machine halts in exactly
the step in which the first process ends (`halts_iff_first_ends`).  The
condition is about who dies, not about the tree: clean terminations meet it
(`dies_iff_descends`), and so does the end of a first child with a sibling, if
only the siblings it cuts off end before their parent does.
-/
import Pandos.Descent
import Pandos.Lib.Trace
import Pandos.SoftBlocked

namespace Pandos

open Trace

/-! ## Everybody descends from the first process -/

namespace History

variable {hist : History}

/-- A process is younger than the one that has created it. -/
structure Ordered (h : History) : Prop where
  first : h.creator 0 = none
  older : ∀ n, 0 < n → n < h.next → ∃ m < n, h.creator n = some m
  pos : 0 < h.next

namespace Ordered

theorem start : Ordered .start :=
  ⟨rfl, fun _ hpos hlt => absurd hlt (Nat.not_lt.mpr hpos), Nat.zero_lt_one⟩

/-- The way up through the creators ends at the first process. -/
theorem descends (h : Ordered hist) : ∀ n, 0 < n → n < hist.next → hist.Descends n 0 := by
  intro n
  induction n using Nat.strong_induction_on with
  | _ n ih =>
    intro hpos hlt
    obtain ⟨m, hm, hcreator⟩ := h.older n hpos hlt
    rcases Nat.eq_zero_or_pos m with rfl | hmpos
    · exact .single hcreator
    · exact .head hcreator (ih m hm hmpos (hm.trans hlt))

/-- With one more process, created by a known one. -/
theorem create (h : Ordered hist) {m : Nat} (hm : m < hist.next) (pid : PcbPtr → Nat) :
    Ordered ⟨pid, Function.update hist.creator hist.next (some m), hist.next + 1⟩ := by
  constructor
  case first => exact (Function.update_of_ne h.pos.ne _ _).trans h.first
  case older =>
    intro n hpos hlt
    dsimp only
    rcases Nat.lt_succ_iff_lt_or_eq.mp hlt with hn | rfl
    · rw [Function.update_of_ne hn.ne]
      exact h.older n hpos hn
    · exact ⟨m, hm, Function.update_self ..⟩
  case pos => exact Nat.succ_pos _

end Ordered
end History

/-! ## Halting -/

namespace Core

variable {c c' : Core}

/-- `HALT` is called for want of processes. -/
theorem Outcome.count_of_halted {fuel : Nat} {act : Action} (h : Outcome fuel c act c')
    (hm : c.mode = .busy ∨ c.mode = .waiting) (hh : c'.mode = .halted) : c'.processCount = 0 := by
  have hidle : ∀ {d : Core}, d.dispatch.mode = .halted → d.dispatch.processCount = 0 := by
    intro d hd
    exact (dispatch_idle (by simp [hd])).1.mp hd
  have hback : ∀ {d : Core}, d.back.mode = .halted → d.back.processCount = 0 := by
    intro d hd
    unfold back at hd ⊢
    split at hd
    · exact nomatch hd
    · exact hidle hd
  cases h with
  | full _ _ | created _ _ _ | resume _ | down _ _ _ | up _ _ _ | upWakes _ _ _ | clock _ _ _ =>
      exact nomatch hh
  | preemptNobody _ | panic => exact nomatch hh
  | terminated _ _ | preempt _ => exact hidle hh
  | downBlocks _ _ _ | ioWait _ _ | clockBlocks _ _ _ => exact hidle hh
  | tick _ | device _ | spurious => exact hback hh
  | store => rcases hm with hm | hm <;> exact nomatch hm.symm.trans hh

/-- With nobody live, the scheduler calls it. -/
theorem Tidy.halted_of_empty (h : Tidy c.dispatch) (hnone : c.dispatch.liveSet = ∅) :
    c.dispatch.mode = .halted := by
  have hzero : c.dispatch.processCount = 0 := by
    rw [h.count_eq, hnone, Finset.card_empty, Nat.cast_zero]
  refine (dispatch_idle fun hbusy => ?_).1.mpr hzero
  obtain ⟨p, hp, -⟩ := h.inv.busy hbusy
  have hlive := h.current_live (.inl hbusy) hp
  rw [hnone] at hlive
  exact Finset.notMem_empty p hlive

end Core

/-! ## One step -/

/-- The back link of the process that ends is right, and with it end its
descendants and nobody else. -/
structure Trans.FamilyEnd (h : History) (x : Trans Queues) : Prop where
  prev : x.BackLinked
  dies : x.action = .terminate → ∀ p, x.before.currentProcess = some p →
    ∀ y, x.before.Live y → (¬ x.after.Live y ↔ y = p ∨ h.Descends (h.pid y) (h.pid p))

namespace HistoryMove

variable {act : Action} {h h' : History} {c d : Core} {x : PcbPtr}

/-- Only a termination takes anybody away. -/
theorem liveSet_sub (hmove : HistoryMove act h c h' d) (hact : act ≠ .terminate) :
    c.liveSet ⊆ d.liveSet := by
  cases hmove with
  | kept _ hk => exact hk.liveSet_eq.superset
  | created _ _ _ hset _ _ => exact hset ▸ Finset.subset_insert ..
  | terminated ht _ _ _ _ => exact absurd ht hact

/-- Only a creation brings anybody. -/
theorem sub_liveSet (hmove : HistoryMove act h c h' d) (hact : act ≠ .createProcess) :
    d.liveSet ⊆ c.liveSet := by
  cases hmove with
  | kept _ hk => exact hk.liveSet_eq.subset
  | created hc _ _ _ _ _ => exact absurd hc hact
  | terminated _ _ _ hset _ => exact hset ▸ Finset.sdiff_subset

/-- The numbers of the processes do not change. -/
theorem pid_eq (hmove : HistoryMove act h c h' d) (hx : x ∈ c.liveSet) : h'.pid x = h.pid x := by
  cases hmove with
  | kept hh _ | terminated _ _ hh _ _ => rw [hh]
  | created _ _ htmp _ _ hh =>
      rw [hh]
      refine Function.update_of_ne ?_ _ _
      rintro rfl
      exact htmp hx

theorem numbered (hmove : HistoryMove act h c h' d) (hn : c.Numbered h) : d.Numbered h' := by
  cases hmove with
  | kept hh hk => exact hh ▸ hn.sub hk.liveSet_eq.subset
  | created _ _ htmp hset _ hh => exact hh ▸ hn.created hset htmp _
  | terminated _ _ hh hset _ => exact hh ▸ hn.sub (hset ▸ Finset.sdiff_subset)

theorem ordered (hmove : HistoryMove act h c h' d) (hn : c.Numbered h) (ho : h.Ordered) :
    h'.Ordered := by
  cases hmove with
  | kept hh _ | terminated _ _ hh _ _ => exact hh ▸ ho
  | @created cur _ _ hcur _ _ _ hh => exact hh ▸ ho.create (hn.fresh cur hcur) _

end HistoryMove

/-- What is known in a run in which processes end with their descendants: the
first process is there until the machine halts. -/
structure FamilyRep (tr : List (Trans Queues)) (k : Kernel Queues) (c : Core) : Prop where
  rep : Rep k c
  tidy : c.Tidy
  numbered : c.Numbered (history tr)
  ordered : (history tr).Ordered
  first : c.mode ≠ .halted → ∃ p ∈ c.liveSet, (history tr).pid p = 0

namespace FamilyRep

variable {tr : List (Trans Queues)} {k k' : Kernel Queues} {c d : Core} {e : Event} {fuel : Nat}
  {p x : PcbPtr}

/-- Everybody descends from the first process. -/
theorem descends (h : FamilyRep tr k c) (hx : x ∈ c.liveSet) :
    (history tr).pid x = 0 ∨ (history tr).Descends ((history tr).pid x) 0 := by
  rcases Nat.eq_zero_or_pos ((history tr).pid x) with hzero | hpos
  · exact .inl hzero
  · exact .inr (h.ordered.descends _ hpos (h.numbered.fresh x hx))

theorem live_iff (h : FamilyRep tr k c) (hm : c.mode = .busy ∨ c.mode = .waiting) :
    k.Live x ↔ x ∈ c.liveSet := by
  have hnp : c.mode ≠ .panicked := by
    rcases hm with hm | hm <;> simp [hm]
  rw [h.rep.live_iff]
  exact ⟨h.tidy.mem_liveSet_of_live, fun hx => h.tidy.live hnp x (Core.mem_liveSet.mp hx)⟩

theorem move (h : FamilyRep tr k c) (hnext : c.next fuel (action k.toShared e) = some d)
    (hend : (⟨k, e, k'⟩ : Trans Queues).FamilyEnd (history tr)) :
    HistoryMove (action k.toShared e) (history tr) c (history (tr ++ [⟨k, e, k'⟩])) d :=
  h.rep.historyMove h.tidy hnext (h.rep.backLinked hend.prev)

theorem tidy_next (h : FamilyRep tr k c) (hnext : c.next fuel (action k.toShared e) = some d)
    (hend : (⟨k, e, k'⟩ : Trans Queues).FamilyEnd (history tr)) : d.Tidy :=
  Core.next_tidy h.tidy (h.rep.backLinked hend.prev) hnext

/-- Nobody is there any more but a process that has ended and its descendants. -/
theorem gone_iff (h : FamilyRep tr k c) (hd : Rep k' d)
    (hnext : c.next fuel (action k.toShared e) = some d)
    (hend : (⟨k, e, k'⟩ : Trans Queues).FamilyEnd (history tr)) (hx : x ∈ c.liveSet) :
    x ∉ d.liveSet ↔ action k.toShared e = .terminate ∧ ∃ p, k.currentProcess = some p ∧
      (x = p ∨ (history tr).Descends ((history tr).pid x) ((history tr).pid p)) := by
  by_cases hact : action k.toShared e = .terminate
  case neg =>
    exact iff_of_false (not_not.mpr ((h.move hnext hend).liveSet_sub hact hx)) fun hh => hact hh.1
  have hm := (Core.next_outcome hnext).1
  have hafter : k'.Live x ↔ x ∈ d.liveSet := by
    rw [hd.live_iff]
    refine ⟨(h.tidy_next hnext hend).mem_liveSet_of_live, fun hx => ?_⟩
    refine Core.next_live h.tidy (h.rep.backLinked hend.prev) hnext ?_ (Core.mem_liveSet.mp hx)
    rw [hact]
    exact nofun
  obtain ⟨p, hp⟩ : ∃ p, k.currentProcess = some p := by
    rw [hact] at hnext
    cases (Core.next_outcome hnext).2 with
    | terminated hcur _ => exact ⟨_, h.rep.current.symm.trans hcur⟩
  rw [← hafter, hend.dies hact p hp x ((h.live_iff hm).mpr hx)]
  simp [hact, hp]

/-- The first process is gone only if it has ended. -/
theorem first_gone_iff (h : FamilyRep tr k c) (hd : Rep k' d)
    (hnext : c.next fuel (action k.toShared e) = some d)
    (hend : (⟨k, e, k'⟩ : Trans Queues).FamilyEnd (history tr)) (hx : x ∈ c.liveSet)
    (hfirst : (history tr).pid x = 0) :
    x ∉ d.liveSet ↔ action k.toShared e = .terminate ∧ k.currentProcess = some x := by
  rw [h.gone_iff hd hnext hend hx]
  refine and_congr_right fun _ => ⟨?_, fun hcur => ⟨x, hcur, .inl rfl⟩⟩
  rintro ⟨p, hp, rfl | hdesc⟩
  · exact hp
  · rw [hfirst] at hdesc
    exact absurd hdesc (History.not_descends h.ordered.first)

/-- When it ends, nobody is left. -/
theorem empty (h : FamilyRep tr k c) (hd : Rep k' d)
    (hnext : c.next fuel (action k.toShared e) = some d)
    (hend : (⟨k, e, k'⟩ : Trans Queues).FamilyEnd (history tr))
    (hact : action k.toShared e = .terminate) (hcur : k.currentProcess = some p)
    (hfirst : (history tr).pid p = 0) : d.liveSet = ∅ := by
  have hm := (Core.next_outcome hnext).1
  have hp := h.tidy.current_live hm (h.rep.current.trans hcur)
  refine Finset.eq_empty_of_forall_notMem fun x hx => ?_
  have hxc := (h.move hnext hend).sub_liveSet (by rw [hact]; exact nofun) hx
  refine (h.gone_iff hd hnext hend hxc).mpr ⟨hact, p, hcur, ?_⟩ hx
  rw [hfirst]
  exact (h.descends hxc).imp_left fun hzero =>
    h.numbered.inj x hxc p hp (hzero.trans hfirst.symm)

theorem exists_first (h : FamilyRep tr k c) (hm : c.mode = .busy ∨ c.mode = .waiting) :
    ∃ p ∈ c.liveSet, (history tr).pid p = 0 :=
  h.first (by rcases hm with hm | hm <;> simp [hm])

theorem halted_iff (h : FamilyRep tr k c) (hd : Rep k' d)
    (hnext : c.next fuel (action k.toShared e) = some d)
    (hend : (⟨k, e, k'⟩ : Trans Queues).FamilyEnd (history tr)) :
    d.mode = .halted ↔ action k.toShared e = .terminate ∧
      ∃ p, k.currentProcess = some p ∧ (history tr).pid p = 0 := by
  obtain ⟨hm, hout⟩ := Core.next_outcome hnext
  have htidy := h.tidy_next hnext hend
  constructor
  · intro hh
    have hzero : d.liveSet = ∅ := by
      rw [← Finset.card_eq_zero, ← Nat.cast_eq_zero (R := Int), ← htidy.count_eq]
      exact hout.count_of_halted hm hh
    obtain ⟨p, hp, hfirst⟩ := h.exists_first hm
    have hgone := (h.first_gone_iff hd hnext hend hp hfirst).mp (by simp [hzero])
    exact ⟨hgone.1, p, hgone.2, hfirst⟩
  · rintro ⟨hact, p, hcur, hfirst⟩
    have hempty := h.empty hd hnext hend hact hcur hfirst
    rw [hact] at hout
    cases hout with
    | terminated _ _ => exact htidy.halted_of_empty hempty

theorem step (h : FamilyRep tr k c) (hd : Rep k' d)
    (hnext : c.next fuel (action k.toShared e) = some d)
    (hend : (⟨k, e, k'⟩ : Trans Queues).FamilyEnd (history tr)) :
    FamilyRep (tr ++ [⟨k, e, k'⟩]) k' d := by
  have hmove := h.move hnext hend
  refine ⟨hd, h.tidy_next hnext hend, hmove.numbered h.numbered, hmove.ordered h.numbered h.ordered,
    fun hh => ?_⟩
  obtain ⟨p, hp, hfirst⟩ := h.exists_first (Core.next_outcome hnext).1
  refine ⟨p, by_contra fun hgone => hh ?_, (hmove.pid_eq hp).trans hfirst⟩
  obtain ⟨hact, hcur⟩ := (h.first_gone_iff hd hnext hend hp hfirst).mp hgone
  exact (h.halted_iff hd hnext hend).mpr ⟨hact, p, hcur, hfirst⟩

end FamilyRep

/-! ## Runs -/

theorem Boot.familyRep {k₀ : Kernel Queues} (h₀ : Boot k₀) : ∃ c, FamilyRep [] k₀ c := by
  obtain ⟨m, hrep⟩ := h₀.rep
  have htidy := Core.bootCore_tidy m
  have hnumbered : (bootCore m).Numbered .start := (Core.bootCore_genealogy m).toNumbered
  exact ⟨_, hrep, htidy, hnumbered, History.Ordered.start,
    fun _ => ⟨0, htidy.current_live (.inl rfl) rfl, rfl⟩⟩

theorem Run.familyRep {k₀ k : Kernel Queues} {tr : List (Trans Queues)} (h₀ : Boot k₀)
    (h : Run k₀ tr k) (hend : Along History.after Trans.FamilyEnd .start tr) :
    ∃ c, FamilyRep tr k c := by
  induction h with
  | nil => exact h₀.familyRep
  | snoc _ hstep ih =>
      obtain ⟨hend, hlast⟩ := along_concat.mp hend
      obtain ⟨c, hrep⟩ := ih hend
      obtain ⟨fuel, d, hnext, hd⟩ := hrep.rep.step hstep
      exact ⟨d, hrep.step hd hnext hlast⟩

/-- In every run in which processes end with their descendants and with nobody
else, the first process is live, everybody else descends from it, and a step
ends in `HALT` if and only if in that step the first process ends. -/
theorem halts_iff_first_ends {k₀ k k' : Kernel Queues} {tr : List (Trans Queues)} {e : Event}
    (h₀ : Boot k₀) (h : Run k₀ tr k) (hstep : Step k e k')
    (hend : Along History.after Trans.FamilyEnd .start (tr ++ [⟨k, e, k'⟩])) :
    (∃ p, k.Live p ∧ (history tr).pid p = 0) ∧
      (∀ p, k.Live p → (history tr).pid p = 0 ∨
        (history tr).Descends ((history tr).pid p) 0) ∧
      (k'.cpu = .halted ↔ action k.toShared e = .terminate ∧
        ∃ p, k.currentProcess = some p ∧ (history tr).pid p = 0) ∧
      (k'.cpu = .halted → ∀ p, ¬ k'.Live p) := by
  obtain ⟨hend, hlast⟩ := along_concat.mp hend
  obtain ⟨c, hrep⟩ := Run.familyRep h₀ h hend
  obtain ⟨fuel, d, hnext, hd⟩ := hrep.rep.step hstep
  have hm := (Core.next_outcome hnext).1
  have hiff := hrep.halted_iff hd hnext hlast
  rw [hd.mode, Cpu.mode_eq_halted] at hiff
  refine ⟨?_, fun p hp => hrep.descends ((hrep.live_iff hm).mp hp), hiff, fun hh p hp => ?_⟩
  · obtain ⟨p, hp, hfirst⟩ := hrep.exists_first hm
    exact ⟨p, (hrep.live_iff hm).mpr hp, hfirst⟩
  · obtain ⟨hact, q, hcur, hfirst⟩ := hiff.mp hh
    have hempty := hrep.empty hd hnext hlast hact hcur hfirst
    have hlive := (hrep.tidy_next hnext hlast).mem_liveSet_of_live ((hd.live_iff p).mp hp)
    rw [hempty] at hlive
    exact Finset.notMem_empty p hlive

/-- The first process has two children, and they end, the first one first. -/
def rootScript : List Event := [callCreate, callCreate, pltTick, callTerm, callTerm]

/-- `p` is the first process or one of its children. -/
def History.Flat (h : History) (p : PcbPtr) : Prop :=
  h.creator 0 = none ∧ (h.pid p = 0 ∨ h.creator (h.pid p) = some 0)

instance (h : History) (p : PcbPtr) : Decidable (h.Flat p) :=
  inferInstanceAs (Decidable (_ ∧ (_ ∨ _)))

theorem History.Flat.descends_iff {h : History} {p : PcbPtr} {m : Nat} (hp : h.Flat p) :
    h.Descends (h.pid p) m ↔ h.creator (h.pid p) = some 0 ∧ m = 0 := by
  obtain ⟨hnone, hzero | hone⟩ := hp
  · rw [hzero, hnone]
    exact iff_of_false (not_descends hnone) nofun
  · rw [History.descends_iff hone, or_iff_left (not_descends hnone), hone]
    exact ⟨fun h => ⟨rfl, h.symm⟩, fun h => h.2.symm⟩

/-- An evident case of `FamilyEnd`. -/
def Trans.FlatEnd (h : History) (x : Trans Queues) : Prop :=
  x.BackLinked ∧ (x.action = .terminate → ∀ p, x.before.currentProcess = some p →
    ∀ y, x.before.Live y → h.Flat y ∧
      (¬ x.after.Live y ↔ y = p ∨ h.creator (h.pid y) = some 0 ∧ h.pid p = 0))

instance (h : History) (x : Trans Queues) : Decidable (x.FlatEnd h) :=
  inferInstanceAs (Decidable (_ ∧ (_ → ∀ _, _ → ∀ _, _ → _ ∧ _)))

theorem Trans.FlatEnd.familyEnd {h : History} {x : Trans Queues} (hx : x.FlatEnd h) :
    x.FamilyEnd h := by
  refine ⟨hx.1, fun hact p hp y hy => ?_⟩
  obtain ⟨hflat, hiff⟩ := hx.2 hact p hp y hy
  rw [hflat.descends_iff]
  exact hiff

/-- The first of them to end is a first child with a sibling.  The machine goes
on then, and halts when the first process itself ends. -/
theorem halts_iff_first_ends_rootScript : ∃ k₀ tr k k', Boot k₀ ∧ Run k₀ tr k ∧
    tr.map Trans.event = rootScript ∧ k.currentProcess = some 0 ∧ Step k callTerm k' ∧
      k'.cpu = .halted := by
  have hany : (Script.eval walkFuel .zero .zero rootScript).any (fun x =>
      (step walkFuel x.final callTerm).any fun k' =>
        Along History.after Trans.FlatEnd .start (x.trace ++ [⟨x.final, callTerm, k'⟩]) ∧
          x.final.currentProcess = some 0 ∧ action x.final.toShared callTerm = .terminate ∧
          (history x.trace).pid 0 = 0) = true := by
    decide +kernel
  obtain ⟨x, hx, hany⟩ := Script.exists_of_any hany
  obtain ⟨hboot, hrun, hevents⟩ := Script.run hx
  obtain ⟨k', hk', h⟩ := (Option.any_eq_true _ _).mp hany
  obtain ⟨hflat, hcur, hact, hfirst⟩ := of_decide_eq_true h
  have hstep : Step x.final callTerm k' := ⟨walkFuel, hk'⟩
  have hend := hflat.imp fun _ _ => Trans.FlatEnd.familyEnd
  have hhalt := (halts_iff_first_ends hboot hrun hstep hend).2.2.1
  exact ⟨x.start, x.trace, x.final, k', hboot, hrun, hevents, hcur, hstep,
    hhalt.mpr ⟨hact, 0, hcur, hfirst⟩⟩

end Pandos
