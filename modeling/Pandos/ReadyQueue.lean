/-
# `Pandos.ReadyQueue` — the ready queue is served in turn

Seven handlers insert processes in the ready queue, a termination takes them
out of it wherever they stand, and `scheduler` takes the first.  Each event is
one turn of a round robin (`Rep.turn`, `Pandos.Lib.RoundRobin`): those who are
terminated leave, those who become ready join at the end in the order of their
insertion, and if nobody runs the first is dispatched.

So the process that is dispatched has been ready longest, nobody overtakes a
ready process, and every insertion is answered by one dispatch or by the end
of the process (`round_robin`).
-/
import Pandos.Lib.RoundRobin
import Pandos.Clock

namespace Pandos

open RoundRobin Simulation Kernel

namespace Core

variable {c c' d : Core} {act : Action} {fuel : Nat}

/-- The processes that an action makes ready, in the order of insertion. -/
def joins (c : Core) : Action → List PcbPtr
  | .createProcess => c.q.free.head?.toList
  | .verhogen s => (c.q.blocked s).head?.toList
  | .device s => if c.mem s ≤ 0 then (c.q.blocked s).head?.toList else []
  | .tick s => c.q.blocked s
  | .plt => c.current.toList
  | .terminate | .passeren _ | .ioWait _ | .clockWait _ | .resume | .spurious | .store _ _
  | .panic | .reject => []

/-- The process that an action dispatches. -/
def dispatched (c : Core) (act : Action) (c' : Core) : Option PcbPtr :=
  if act = .plt ∨ c'.running ≠ c.running then c'.running else none

/-- An action is the turn `t` of the ready queue. -/
structure Turns (c : Core) (act : Action) (c' : Core) (t : Turn PcbPtr) : Prop where
  joins : t.joins = c.joins act
  rest : c'.q.ready = t.rest c.q.ready
  served : c.dispatched act c' = t.served c.q.ready
  leaves : ∀ p, t.leaves p = true → act = .terminate ∧ ¬ c'.Live p

theorem kill_ready (hwf : c.q.Wf) (p : PcbPtr) :
    (c.kill p).q.ready = c.q.ready.filter fun x => !decide (x = p) := by
  unfold kill
  split
  next hp =>
    refine (List.filter_eq_self.mpr fun x hx => ?_).symm
    have hne : x ≠ p := by
      rintro rfl
      exact hp (hwf.pSemAdd_ready x hx)
    simpa using hne
  · exact hwf.ready_nodup.erase_eq_filter p

theorem killAll_ready (vs : List PcbPtr) : ∀ {c : Core}, c.q.Wf →
    (vs.foldl kill c).q.ready = c.q.ready.filter fun x => !decide (x ∈ vs) := by
  induction vs with
  | nil =>
      intro c _
      simp
  | cons p vs ih =>
      intro c hwf
      rw [List.foldl_cons, ih (kill_wf hwf p), kill_ready hwf, List.filter_filter]
      refine List.filter_congr fun x _ => ?_
      simp [Bool.and_comm]

/-! ## Turns -/

/-- The running process goes on. -/
theorem turns_stay (hrun : c'.running = c.running) (hplt : act ≠ .plt)
    (hready : c'.q.ready = c.q.ready ++ c.joins act) :
    c.Turns act c' ⟨fun _ => false, c.joins act, false⟩ where
  joins := rfl
  rest := by simp [hready, Turn.rest, Turn.line]
  served := if_neg (not_or.mpr ⟨hplt, not_not.mpr hrun⟩)
  leaves := nofun

/-- The first ready process is dispatched. -/
theorem turns_serve (h : act = .plt ∨ ∀ p, c.running = some p → p ∉ c.q.ready ++ c.joins act)
    (hready : d.q.ready = c.q.ready ++ c.joins act) :
    c.Turns act d.dispatch ⟨fun _ => false, c.joins act, true⟩ where
  joins := rfl
  rest := by simp [dispatch_ready, hready, Turn.rest, Turn.line]
  served := by
    have hline : (Turn.line ⟨fun _ => false, c.joins act, true⟩ c.q.ready) =
        c.q.ready ++ c.joins act := by simp [Turn.line]
    rw [dispatched, dispatch_running, hready, Turn.served, if_pos rfl, hline]
    cases hhead : (c.q.ready ++ c.joins act).head? with
    | none => exact ite_self none
    | some p =>
        refine if_pos (h.imp_right fun hne heq => ?_)
        exact hne p heq.symm (List.mem_of_head? hhead)
  leaves := nofun

/-- A call that returns to its caller. -/
theorem turns_run (hinv : c.Inv) (hm : c.mode = .busy ∨ c.mode = .waiting) {cur : PcbPtr}
    (hcur : c.current = some cur) (hplt : act ≠ .plt)
    (hready : d.q.ready = c.q.ready ++ c.joins act) : ∃ t, c.Turns act (d.run cur) t := by
  have hrun : (d.run cur).running = c.running := by
    rw [hinv.running_eq hm, hcur]
    rfl
  exact ⟨_, turns_stay hrun hplt hready⟩

/-- A call that blocks its caller. -/
theorem turns_block (hinv : c.Inv) (hm : c.mode = .busy ∨ c.mode = .waiting)
    (hjoins : c.joins act = []) (s : Word) (p : PcbPtr) (hready : d.q.ready = c.q.ready) :
    ∃ t, c.Turns act (d.block s p) t := by
  refine ⟨_, turns_serve (.inr fun p hp => ?_) (hready.trans ?_)⟩
  · rw [hjoins, List.append_nil]
    rw [hinv.running_eq hm] at hp
    exact (hinv.detached hm hp).2.1
  · rw [hjoins, List.append_nil]

/-- The end of an interrupt. -/
theorem turns_back (hinv : c.Inv) (hm : c.mode = .busy ∨ c.mode = .waiting)
    (hplt : act ≠ .plt) (hcur : d.current = c.current)
    (hready : d.q.ready = c.q.ready ++ c.joins act) : ∃ t, c.Turns act d.back t := by
  unfold back
  rw [hcur]
  cases hc : c.current with
  | some p => exact turns_run hinv hm hc hplt hready
  | none =>
      refine ⟨_, turns_serve (.inr fun p hp => ?_) hready⟩
      rw [hinv.running_eq hm, hc] at hp
      exact nomatch hp

/-- The processor stops. -/
theorem turns_stop (hready : c'.q.ready = c.q.ready) (hstop : c'.running = none)
    (hjoins : c.joins act = []) : c.Turns act c' ⟨fun _ => false, [], false⟩ where
  joins := hjoins.symm
  rest := by simp [hready, Turn.rest, Turn.line]
  served := by
    rw [dispatched, hstop]
    exact ite_self none
  leaves := nofun

/-- A termination. -/
theorem turns_terminate (hinv : c.Inv) (hm : c.mode = .busy ∨ c.mode = .waiting)
    (vs : List PcbPtr) (t : Tree) :
    c.Turns .terminate (c.killAll vs t).dispatch ⟨fun p => decide (p ∈ vs), [], true⟩ := by
  have hready : (c.killAll vs t).q.ready = c.q.ready.filter fun x => !decide (x ∈ vs) :=
    killAll_ready vs (c := { c with tree := t }) hinv.wf
  constructor
  case joins => rfl
  case rest =>
    rw [dispatch_ready, hready]
    simp [Turn.rest, Turn.line]
  case served =>
    rw [dispatched, dispatch_running, hready, Turn.served, if_pos rfl, Turn.line, List.append_nil]
    cases hhead : (c.q.ready.filter fun x => !decide (x ∈ vs)).head? with
    | none => exact ite_self none
    | some p =>
        refine if_pos (.inr fun heq => ?_)
        rw [hinv.running_eq hm] at heq
        exact (hinv.detached hm heq.symm).2.1 (List.mem_of_mem_filter (List.mem_of_head? hhead))
  case leaves =>
    intro p hp
    obtain ⟨hr, hx⟩ := killAll_dead vs (c := { c with tree := t }) hinv.wf
      (.inl (of_decide_eq_true hp))
    exact ⟨rfl, dispatch_dead hr hx⟩

theorem next_turn (hinv : c.Inv) (hnext : c.next fuel act = some c') :
    ∃ t, c.Turns act c' t := by
  obtain ⟨hm, hout⟩ := next_outcome hnext
  have hwf := hinv.wf
  cases hout with
  | full hcur hf => exact turns_run hinv hm hcur (by rintro ⟨⟩) (by simp [joins, hf])
  | created hcur hf _ =>
      unfold created
      exact turns_run hinv hm hcur (by rintro ⟨⟩) (by simp [joins, hf])
  | terminated _ _ => exact ⟨_, turns_terminate hinv hm _ _⟩
  | down hcur _ _ | clock hcur _ _ =>
      exact turns_run hinv hm hcur (by rintro ⟨⟩) (by simp [joins, addMem])
  | resume hcur => exact turns_run hinv hm hcur (by rintro ⟨⟩) (by simp [joins])
  | downBlocks _ _ _ | ioWait _ _ | clockBlocks _ _ _ => exact turns_block hinv hm rfl _ _ rfl
  | up hcur _ hb => exact turns_run hinv hm hcur (by rintro ⟨⟩) (by simp [joins, hb, addMem])
  | @upWakes cur s p l hcur _ hb =>
      have hready := wake_unblock_ready (c := c.addMem s 1) hb
      refine turns_run hinv hm hcur (by rintro ⟨⟩) (hready.trans ?_)
      simp [joins, hb, addMem]
  | preempt hcur =>
      exact ⟨_, turns_serve (.inl rfl) (by simp [joins, hcur, wake, Fifos.insertReady])⟩
  | preemptNobody hnone => exact ⟨_, turns_stop rfl rfl (by simp [joins, hnone])⟩
  | @tick s _ => exact turns_back hinv hm (by rintro ⟨⟩) (drain_current hwf s).1 (drain_ready hwf s)
  | @device s _ =>
      refine turns_back hinv hm (by rintro ⟨⟩) (release_current c s) ?_
      rw [joins]
      split
      next hle =>
        cases hb : c.q.blocked s with
        | nil =>
            rw [release_of_nobody hb]
            exact (List.append_nil _).symm
        | cons p l =>
            rw [release_of_blocked hle hb]
            exact wake_unblock_ready (c := c.addSoft (-1)) hb
      next hlt =>
        rw [release_of_pos (not_le.mp hlt)]
        exact (List.append_nil _).symm
  | spurious => exact turns_back hinv hm (by rintro ⟨⟩) rfl (by simp [joins])
  | store => exact ⟨_, turns_stay rfl (by rintro ⟨⟩) (by simp [joins])⟩
  | panic => exact ⟨_, turns_stop rfl rfl rfl⟩

end Core

/-! ## One event -/

namespace Trans

variable (x : Trans Queues)

/-- The processes that become ready, in the order in which they are inserted
in the ready queue. -/
def joins : List PcbPtr :=
  match x.action with
  | .createProcess => x.before.q.freeList.head?.toList
  | .verhogen s => (x.before.blockedOn s).head?.toList
  | .device s => if x.before.mem s ≤ 0 then (x.before.blockedOn s).head?.toList else []
  | .tick s => x.before.blockedOn s
  | .plt => x.before.currentProcess.toList
  | .terminate | .passeren _ | .ioWait _ | .clockWait _ | .resume | .spurious | .store _ _
  | .panic | .reject => []

/-- The process that the scheduler has taken from the ready queue. -/
def dispatched : Option PcbPtr :=
  if x.action = .plt ∨ x.after.running ≠ x.before.running then x.after.running else none

/-- `p` is terminated while it is ready. -/
def Ends (p : PcbPtr) : Prop :=
  x.action = .terminate ∧ p ∈ x.before.readyList ∧ ¬ x.after.Live p

instance (p : PcbPtr) : Decidable (x.Ends p) := inferInstanceAs (Decidable (_ ∧ _ ∧ _))

/-- The event is the turn `t` of the ready queue. -/
structure Turns (t : Turn PcbPtr) : Prop where
  joins : t.joins = x.joins
  rest : x.after.readyList = t.rest x.before.readyList
  served : x.dispatched = t.served x.before.readyList
  leaves : ∀ p ∈ x.before.readyList, t.leaves p = true ↔ x.Ends p
  nodup : x.joins.Nodup
  disjoint : x.before.readyList.Disjoint x.joins

end Trans

namespace Rep

variable {k k' : Kernel Queues} {c : Core} {e : Event}

theorem joins (h : Rep k c) :
    (⟨k, e, k'⟩ : Trans Queues).joins = c.joins (⟨k, e, k'⟩ : Trans Queues).action := by
  unfold Trans.joins Core.joins
  simp only [h.blockedOn, h.queues.freeList_eq, ← h.current, ← h.mem]

/-- Who is inserted has not been ready. -/
theorem joins_fresh (h : Rep k c) (hm : c.mode = .busy ∨ c.mode = .waiting) (act : Action) :
    (c.joins act).Nodup ∧ c.q.ready.Disjoint (c.joins act) := by
  have hwf := h.inv.wf
  have hhead : ∀ o : Option PcbPtr, o.toList.Nodup := by
    intro o
    cases o <;> simp
  have hblocked : ∀ s, c.q.ready.Disjoint (c.q.blocked s).head?.toList := fun s p hp hq =>
    hwf.ready_disjoint_blocked s hp (List.mem_of_head? (Option.mem_toList.mp hq))
  cases act with
  | createProcess =>
      exact ⟨hhead _, fun p hp hq =>
        hwf.disjoint (List.mem_of_head? (Option.mem_toList.mp hq)) hp⟩
  | verhogen s => exact ⟨hhead _, hblocked s⟩
  | device s =>
      simp only [Core.joins]
      split
      · exact ⟨hhead _, hblocked s⟩
      · exact ⟨.nil, List.disjoint_nil_right _⟩
  | tick s => exact ⟨hwf.blocked_nodup s, hwf.ready_disjoint_blocked s⟩
  | plt =>
      exact ⟨hhead _, fun p hp hq =>
        (h.inv.detached hm (Option.mem_toList.mp hq)).2.1 hp⟩
  | _ => exact ⟨.nil, List.disjoint_nil_right _⟩

/-- Each event is a turn of the ready queue. -/
theorem turn (h : Rep k c) (hs : Step k e k') :
    ∃ t, (⟨k, e, k'⟩ : Trans Queues).Turns t := by
  obtain ⟨fuel, d, hnext, hd⟩ := h.step hs
  have hm := (Core.next_outcome hnext).1
  obtain ⟨t, hjoins, hrest, hserved, hleaves⟩ := Core.next_turn h.inv hnext
  obtain ⟨hnodup, hdisj⟩ := h.joins_fresh hm (action k.toShared e)
  have hrest' : k'.readyList = t.rest k.readyList := by
    rw [hd.readyList, h.readyList, hrest]
  have hserved' : (⟨k, e, k'⟩ : Trans Queues).dispatched = t.served k.readyList := by
    rw [h.readyList, ← hserved, Core.dispatched, ← h.running, ← hd.running]
    rfl
  refine ⟨t, ?_, hrest', hserved', fun p hp => ⟨fun hl => ?_, fun hend => ?_⟩, ?_, ?_⟩
  · rw [h.joins]
    exact hjoins
  · obtain ⟨hact, hdead⟩ := hleaves p hl
    exact ⟨hact, hp, fun hlive => hdead ((hd.live_iff p).mp hlive)⟩
  · by_contra hl
    have hline : p ∈ t.line k.readyList := Turn.mem_line.mpr (.inl ⟨hp, by simpa using hl⟩)
    rw [← Turn.served_append_rest, List.mem_append, ← hserved', ← hrest'] at hline
    refine hend.2.2 ?_
    rcases hline with hline | hline
    · have hdis := Option.mem_toList.mp hline
      unfold Trans.dispatched at hdis
      split at hdis
      · exact .inr (.inr hdis)
      · exact nomatch hdis
    · exact .inl hline
  · rw [h.joins]
    exact hnodup
  · rw [h.joins]
    show k.readyList.Disjoint _
    rw [h.readyList]
    exact hdisj

end Rep

/-! ## Runs -/

/-- All that have become ready, in the order of insertion. -/
def joined (tr : List (Trans Queues)) : List PcbPtr := tr.flatMap Trans.joins

def dispatches (p : PcbPtr) (tr : List (Trans Queues)) : Nat :=
  tr.countP fun x => decide (x.dispatched = some p)

def endings (p : PcbPtr) (tr : List (Trans Queues)) : Nat :=
  tr.countP fun x => decide (x.Ends p)

namespace Trans.Turns

variable {x : Trans Queues} {t : Turn PcbPtr}

theorem leaves_eq (h : x.Turns t) {q : PcbPtr} (hq : ¬ x.Ends q)
    (hmem : q ∈ x.before.readyList) : t.leaves q = false := by
  rw [← Bool.not_eq_true, h.leaves q hmem]
  exact hq

theorem inOrder (h : x.Turns t) {j : List PcbPtr} (hj : InOrder j x.before.readyList) :
    InOrder (j ++ x.joins) x.after.readyList := by
  rw [h.rest, ← h.joins]
  exact hj.rest (h.joins ▸ h.nodup) (h.joins ▸ h.disjoint)

/-- Insertions are dispatches, ends, and who is ready. -/
theorem count (h : x.Turns t) (p : PcbPtr) (hn : x.before.readyList.Nodup) :
    x.before.readyList.count p + x.joins.count p = (if x.Ends p then 1 else 0) +
      (if x.dispatched = some p then 1 else 0) + x.after.readyList.count p := by
  have hcount := t.count_rest x.before.readyList p
  rw [← h.rest, ← h.served, h.joins] at hcount
  rw [hcount]
  congr 2
  by_cases hp : p ∈ x.before.readyList
  · rw [List.count_eq_one_of_mem hn hp]
    exact if_congr (h.leaves p hp) rfl rfl
  · rw [List.count_eq_zero_of_not_mem hp, ite_self, if_neg fun hend => hp hend.2.1]

/-- Nobody overtakes. -/
theorem front (h : x.Turns t) {pre suf : List PcbPtr} {p q : PcbPtr}
    (hline : x.before.readyList ++ x.joins = pre ++ q :: suf) (hp : p ∉ pre) (hne : p ≠ q)
    (hq : x.dispatched ≠ some q ∧ ¬ x.Ends q) :
    (∃ pre suf, x.after.readyList = pre ++ q :: suf ∧ p ∉ pre) ∧ x.dispatched ≠ some p := by
  rw [← h.joins] at hline
  rw [h.served] at hq ⊢
  rw [h.rest]
  obtain ⟨hrest, hserved⟩ := Turn.front hline (h.leaves_eq hq.2) hq.1 hp
  exact ⟨hrest, hserved hne⟩

end Trans.Turns

theorem Reachable.turn {k k' : Kernel Queues} {e : Event} (h : Reachable k) (hs : Step k e k') :
    ∃ t, (⟨k, e, k'⟩ : Trans Queues).Turns t := by
  obtain ⟨c, hc⟩ := h.rep
  exact hc.turn hs

theorem Reachable.readyList_nodup {k : Kernel Queues} (h : Reachable k) : k.readyList.Nodup := by
  obtain ⟨c, hc⟩ := h.rep
  rw [hc.readyList]
  exact hc.inv.wf.ready_nodup

/-- The ready queue stands in the order of insertion, and nobody is lost. -/
theorem Run.queue {k₀ k : Kernel Queues} {tr : List (Trans Queues)} (h₀ : Boot k₀)
    (h : Run k₀ tr k) : InOrder (joined tr) k.readyList ∧
      ∀ p, (joined tr).count p = dispatches p tr + endings p tr + k.readyList.count p := by
  induction h with
  | nil =>
      obtain ⟨m, hrep⟩ := h₀.rep
      have hempty : k₀.readyList = [] := hrep.readyList
      rw [hempty]
      exact ⟨.nil, fun p => rfl⟩
  | @snoc tr k e k' hrun hs ih =>
      obtain ⟨horder, hcount⟩ := ih
      have hk : Reachable k := ⟨k₀, tr, h₀, hrun⟩
      obtain ⟨t, ht⟩ := hk.turn hs
      have hjoined : joined (tr ++ [⟨k, e, k'⟩]) = joined tr ++ Trans.joins ⟨k, e, k'⟩ := by
        simp [joined]
      refine ⟨hjoined ▸ ht.inOrder horder, fun p => ?_⟩
      have hone : k.readyList.count p + _ = _ + _ + k'.readyList.count p :=
        ht.count p hk.readyList_nodup
      have hp := hcount p
      rw [hjoined, List.count_append]
      simp only [dispatches, endings, List.countP_append, List.countP_singleton,
        decide_eq_true_eq] at hp ⊢
      omega

/-- As long as `q` waits in front of `p`, `p` is not dispatched. -/
theorem Run.front {k k' : Kernel Queues} {tr : List (Trans Queues)} {p q : PcbPtr}
    (h₀ : Reachable k) (h : Run k tr k') (hne : p ≠ q)
    (hfront : ∃ pre suf, k.readyList = pre ++ q :: suf ∧ p ∉ pre)
    (hq : ∀ x ∈ tr, x.dispatched ≠ some q ∧ ¬ x.Ends q) :
    (∃ pre suf, k'.readyList = pre ++ q :: suf ∧ p ∉ pre) ∧
      ∀ x ∈ tr, x.dispatched ≠ some p := by
  induction h with
  | nil => exact ⟨hfront, by simp⟩
  | @snoc tr k₁ e k₂ hrun hs ih =>
      obtain ⟨⟨pre, suf, hline, hp⟩, hnot⟩ := ih fun x hx => hq x (List.mem_append_left _ hx)
      obtain ⟨t, ht⟩ := (h₀.run hrun).turn hs
      have hline' : k₁.readyList ++ Trans.joins ⟨k₁, e, k₂⟩ =
          pre ++ q :: (suf ++ Trans.joins ⟨k₁, e, k₂⟩) := by
        rw [hline, List.append_assoc, List.cons_append]
      obtain ⟨hrest, hserved⟩ := ht.front hline' hp hne (hq _ (by simp))
      refine ⟨hrest, fun x hx => ?_⟩
      rcases List.mem_append.mp hx with hx | hx
      · exact hnot x hx
      · rw [List.mem_singleton.mp hx]
        exact hserved

/-- Who is dispatched has been inserted in the ready queue before all who are
left there.  If `q` stands in front of `p` in the queue to which an event adds
`p`, then `p` is not dispatched as long as `q` is neither dispatched nor
terminated.  Each insertion is one dispatch, one end, or is ready still. -/
theorem round_robin {k₀ k : Kernel Queues} {tr : List (Trans Queues)} (h₀ : Boot k₀)
    (h : Run k₀ tr k) :
    (∀ x : Trans Queues, x.before = k → Step k x.event x.after →
      (∀ p, x.dispatched = some p → p ∈ k.readyList ++ x.joins ∧
        ∀ q ∈ x.after.readyList, since (joined (tr ++ [x])) q < since (joined (tr ++ [x])) p) ∧
      ∀ p q tr' k', [q, p].Sublist (k.readyList ++ x.joins) → Run x.after tr' k' →
        (∀ y ∈ x :: tr', y.dispatched ≠ some q ∧ ¬ y.Ends q) →
          ∀ y ∈ x :: tr', y.dispatched ≠ some p) ∧
      ∀ p, (joined tr).count p =
        dispatches p tr + endings p tr + if p ∈ k.readyList then 1 else 0 := by
  have hk : Reachable k := ⟨k₀, tr, h₀, h⟩
  obtain ⟨horder, hcount⟩ := h.queue h₀
  have hready := hk.readyList_nodup
  refine ⟨?_, fun p => ?_⟩
  · rintro ⟨k₁, e, k'⟩ hx hs
    obtain rfl : k = k₁ := hx.symm
    obtain ⟨t, ht⟩ := hk.turn hs
    refine ⟨fun p hp => ?_, fun p q tr' k'' hline hrun hq => ?_⟩
    · have hserved := ht.served.symm.trans hp
      have hmem := Turn.served_mem hserved
      have hfirst := horder.served (ht.joins ▸ ht.nodup) (ht.joins ▸ ht.disjoint) hserved
      rw [← ht.rest, ht.joins] at hfirst
      rw [Turn.mem_line, ht.joins] at hmem
      refine ⟨List.mem_append.mpr (hmem.imp_left And.left), ?_⟩
      simpa [joined] using hfirst
    · have hnodup : (k.readyList ++ Trans.joins ⟨k, e, k'⟩).Nodup :=
        List.nodup_append'.mpr ⟨hready, ht.nodup, ht.disjoint⟩
      obtain ⟨pre, suf, hcut, hp, hne⟩ := Turn.exists_front hnodup hline
      obtain ⟨hfront, hserved⟩ := ht.front hcut hp hne (hq _ List.mem_cons_self)
      have hrest := hrun.front (hk.run (.snoc .nil hs)) hne hfront fun y hy =>
        hq y (List.mem_cons_of_mem _ hy)
      intro y hy
      rcases List.mem_cons.mp hy with rfl | hy
      · exact hserved
      · exact hrest.2 y hy
  · rw [hcount p, hready.count]

/-- Two processes are created and the first time slice ends. -/
def queueScript : List Event := [callCreate, callCreate, pltTick]

/-- The preempted process stands behind the second of them. -/
theorem round_robin_script : ∃ k₀ tr k, Boot k₀ ∧ Run k₀ tr k ∧ k.readyList = [2, 0] ∧
    (joined tr).count 1 = 1 ∧ dispatches 1 tr = 1 := by
  have hany : (Script.eval walkFuel .zero .zero queueScript).any (fun x =>
      x.final.readyList = [2, 0] ∧ dispatches 1 x.trace = 1 ∧ endings 1 x.trace = 0) = true := by
    decide +kernel
  obtain ⟨x, hx, h⟩ := Script.exists_of_any hany
  obtain ⟨hready, hdispatched, hended⟩ := of_decide_eq_true h
  obtain ⟨hboot, hrun, -⟩ := Script.run hx
  have hcount := (round_robin hboot hrun).2 1
  rw [hready, hdispatched, hended] at hcount
  exact ⟨x.start, x.trace, x.final, hboot, hrun, hready, hcount, hdispatched⟩

end Pandos
