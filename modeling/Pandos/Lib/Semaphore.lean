/-
# `Pandos.Lib.Semaphore` — counting semaphores with a queue

A semaphore is a counter and the queue of those who wait for it.  Besides
the two classical operations there is a third, by which waiting elements
leave the queue for good and give their unit back:

    down x     the counter goes down, and x waits if it is negative now
    up         the counter goes up, and the first of the queue leaves it
    drop dead  the elements of dead leave the queue, each with one `up`

`Accounts` relates the state to a tally of what has happened (`Accounts.step`):
the counter is the initial value plus the units that came in less those that
went out, and the queue is as long as the counter is negative.

A semaphore for completions is used otherwise (`IoOp`): one always waits for
a completion, whatever the counter says, and a completion that finds nobody is
lost.  So its units are never handed out:

    Keeps n     counter + length of the queue = n      (`Keeps.io`)
    Within n    counter + length of the queue ≤ n      (`Within.io`)

`Within 1` is what a completion needs that looks at the counter before it
looks at the queue: where somebody waits, the counter is not positive
(`Within.value_le`).

`Ordered` says that the queue stands in the order of arrival, for a clock
that counts how long each element has been in it (`Ordered.step`).
-/
import Mathlib.Algebra.Order.Group.Int
import Mathlib.Data.List.Nodup

namespace Semaphore

variable {α : Type}

structure Sem (α : Type) where
  value : Int
  queue : List α

inductive Op (α : Type) where
  | down (x : α)
  | up
  | drop (dead : α → Bool)
  | skip

def Sem.step (s : Sem α) : Op α → Sem α
  | .down x => ⟨s.value - 1, if s.value - 1 < 0 then s.queue ++ [x] else s.queue⟩
  | .up => ⟨s.value + 1, s.queue.tail⟩
  | .drop dead => ⟨s.value + s.queue.countP dead, s.queue.filter (fun x => !dead x)⟩
  | .skip => s

theorem countP_or_eq (d e : α → Bool) (l : List α) :
    l.countP (fun x => d x || e x) = l.countP d + (l.filter fun x => !d x).countP e := by
  induction l with
  | nil => rfl
  | cons x l ih => cases hd : d x <;> cases he : e x <;> simp [hd, he, ih] <;> omega

theorem countP_add_length_filter (d : α → Bool) (l : List α) :
    l.countP d + (l.filter fun x => !d x).length = l.length := by
  induction l with
  | nil => rfl
  | cons x l ih => cases hd : d x <;> simp [hd] <;> omega

/-- Two drops are one. -/
theorem Sem.step_drop_drop (s : Sem α) (d e : α → Bool) :
    (s.step (.drop d)).step (.drop e) = s.step (.drop fun x => d x || e x) := by
  simp only [step, countP_or_eq, List.filter_filter, Sem.mk.injEq]
  refine ⟨by omega, List.filter_congr fun x _ => ?_⟩
  cases d x <;> cases e x <;> rfl

/-! ## Accounts -/

/-- What has happened to a semaphore; `passed` are the `down`s that did not
wait, and `woken` those that left the queue by an `up`. -/
structure Tally where
  ups : Nat
  downs : Nat
  dropped : Nat
  passed : Nat
  woken : Nat

def Tally.zero : Tally := ⟨0, 0, 0, 0, 0⟩

def Tally.add (t u : Tally) : Tally :=
  ⟨t.ups + u.ups, t.downs + u.downs, t.dropped + u.dropped, t.passed + u.passed,
    t.woken + u.woken⟩

/-- What one operation adds. -/
def Sem.tally (s : Sem α) : Op α → Tally
  | .down _ => ⟨0, 1, 0, if s.value - 1 < 0 then 0 else 1, 0⟩
  | .up => ⟨1, 0, 0, 0, if s.queue = [] then 0 else 1⟩
  | .drop dead => ⟨0, 0, s.queue.countP dead, 0, 0⟩
  | .skip => .zero

structure Accounts (init : Int) (t : Tally) (s : Sem α) : Prop where
  value : s.value = init + t.ups - t.downs + t.dropped
  length : (s.queue.length : Int) = max 0 (-s.value)
  downs : t.downs = t.passed + t.woken + t.dropped + s.queue.length

namespace Accounts

variable {init : Int} {t : Tally} {s : Sem α}

theorem start {s : Sem α} (h : 0 ≤ s.value) (hq : s.queue = []) :
    Accounts s.value .zero s where
  value := by simp [Tally.zero]
  length := by rw [hq]; simp; omega
  downs := by simp [Tally.zero, hq]

theorem step (h : Accounts init t s) (o : Op α) :
    Accounts init (t.add (s.tally o)) (s.step o) := by
  obtain ⟨value, queue⟩ := s
  obtain ⟨hv, hl, hd⟩ := h
  dsimp only at hv hl hd
  cases o with
  | down x =>
      by_cases hneg : value - 1 < 0
      · constructor <;> simp only [Sem.step, Sem.tally, Tally.add, if_pos hneg,
          List.length_append, List.length_singleton] <;> omega
      · constructor <;> simp only [Sem.step, Sem.tally, Tally.add, if_neg hneg] <;> omega
  | up =>
      cases queue with
      | nil =>
          simp only [List.length_nil] at hl hd
          constructor <;> simp [Sem.step, Sem.tally, Tally.add] <;> omega
      | cons x l =>
          simp only [List.length_cons] at hl hd
          constructor <;> simp [Sem.step, Sem.tally, Tally.add] <;> omega
  | drop dead =>
      have hsplit := countP_add_length_filter dead queue
      constructor <;> simp only [Sem.step, Sem.tally, Tally.add] <;> omega
  | skip => constructor <;> simp only [Sem.step, Sem.tally, Tally.add, Tally.zero] <;> omega

/-- The units handed out are covered by the initial value and the `up`s. -/
theorem completed_le (h : Accounts init t s) : ((t.passed + t.woken : Nat) : Int) ≤ init + t.ups := by
  obtain ⟨hv, hl, hd⟩ := h
  omega

end Accounts

/-! ## Completions -/

inductive IoOp (α : Type) where
  | wait (x : α)
  | answer
  | drop (dead : α → Bool)
  | skip

def Sem.io (s : Sem α) : IoOp α → Sem α
  | .wait x => ⟨s.value - 1, s.queue ++ [x]⟩
  | .answer =>
      match s.queue with
      | [] => s
      | _ :: l => ⟨s.value + 1, l⟩
  | .drop dead => s.step (.drop dead)
  | .skip => s

/-- The counter is `n` less the number of those who wait. -/
def Sem.Keeps (n : Int) (s : Sem α) : Prop := s.value = n - s.queue.length

theorem Sem.Keeps.io {n : Int} {s : Sem α} (h : s.Keeps n) (o : IoOp α) : (s.io o).Keeps n := by
  obtain ⟨value, queue⟩ := s
  unfold Keeps at h ⊢
  dsimp only at h
  cases o with
  | wait x =>
      simp only [Sem.io, List.length_append, List.length_singleton]
      omega
  | answer =>
      cases queue with
      | nil => exact h
      | cons x l =>
          simp only [List.length_cons] at h
          simp only [Sem.io]
          omega
  | drop dead =>
      have hsplit := countP_add_length_filter dead queue
      simp only [Sem.io, Sem.step]
      omega
  | skip => exact h

/-- The counter and those who wait come to `n` at most. -/
def Sem.Within (n : Int) (s : Sem α) : Prop := s.value + s.queue.length ≤ n

theorem Sem.Keeps.within {n m : Int} {s : Sem α} (h : s.Keeps n) (hn : n ≤ m) : s.Within m := by
  unfold Keeps at h
  unfold Within
  omega

namespace Sem.Within

variable {n : Int} {s : Sem α}

theorem keeps (h : s.Within n) : ∃ m ≤ n, s.Keeps m :=
  ⟨s.value + s.queue.length, h, (add_sub_cancel_right s.value _).symm⟩

theorem io (h : s.Within n) (o : IoOp α) : (s.io o).Within n := by
  obtain ⟨m, hm, hkeeps⟩ := h.keeps
  exact (hkeeps.io o).within hm

/-- Where somebody waits, there is no unit. -/
theorem value_le (h : s.Within 1) (hq : s.queue ≠ []) : s.value ≤ 0 := by
  have hpos := List.length_pos_of_ne_nil hq
  unfold Within at h
  omega

end Sem.Within

/-! ## Order of arrival -/

variable [DecidableEq α]

/-- One more unit of time for the elements of `q`; for the others the time
starts again. -/
def tick (q : List α) (age : α → Nat) (x : α) : Nat := if x ∈ q then age x + 1 else 0

/-- Whoever stands further in front has waited longer. -/
def Ordered (age : α → Nat) (q : List α) : Prop := q.Pairwise fun x y => age y < age x

namespace Ordered

variable {age : α → Nat} {s : Sem α} {q : List α}

omit [DecidableEq α] in
/-- The first of the queue has waited longest. -/
theorem head {x : α} {l : List α} (h : Ordered age (x :: l)) : ∀ y ∈ l, age y < age x :=
  (List.pairwise_cons.mp h).1

theorem tick_self (h : Ordered age q) : Ordered (tick q age) q :=
  List.Pairwise.imp_of_mem (fun hx hy hxy => by simp only [tick, if_pos hx, if_pos hy]; omega) h

theorem concat (h : Ordered age q) {x : α} (hx : x ∉ q) : Ordered (tick q age) (q ++ [x]) := by
  refine List.pairwise_append.mpr ⟨h.tick_self, by simp, ?_⟩
  intro y hy z hz
  obtain rfl : z = x := by simpa using hz
  simp only [tick, if_pos hy, if_neg hx]
  omega

theorem step (h : Ordered age s.queue) {o : Op α} (ho : ∀ x, o = .down x → x ∉ s.queue) :
    Ordered (tick s.queue age) (s.step o).queue := by
  cases o with
  | down x =>
      simp only [Sem.step]
      split
      · exact h.concat (ho x rfl)
      · exact h.tick_self
  | up => exact h.tick_self.sublist (List.tail_sublist _)
  | drop dead => exact h.tick_self.sublist List.filter_sublist
  | skip => exact h.tick_self

theorem io (h : Ordered age s.queue) {o : IoOp α} (ho : ∀ x, o = .wait x → x ∉ s.queue) :
    Ordered (tick s.queue age) (s.io o).queue := by
  cases o with
  | wait x => exact h.concat (ho x rfl)
  | answer =>
      obtain ⟨value, queue⟩ := s
      cases queue with
      | nil => exact h.tick_self
      | cons x l => exact h.tick_self.sublist (List.sublist_cons_self _ _)
  | drop dead => exact h.tick_self.sublist List.filter_sublist
  | skip => exact h.tick_self

end Ordered

end Semaphore
