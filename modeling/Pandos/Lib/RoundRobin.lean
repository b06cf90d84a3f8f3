/-
# `Pandos.Lib.RoundRobin` — who is next

A line of elements that wait for their turn.  In one `Turn` some of them may
leave from wherever they stand, some join at the end, and then the first may
be served.

    line    the line when those who leave and join have done so
    served  the first of it, if the turn serves
    rest    the line after the turn

Nobody overtakes (`front`): as long as `q` stands in the line and is not
served, whoever stands behind it is not either, even if they leave and join
again.  Nobody is lost or served twice (`count_rest`), and whoever waits moves
up (`idxOf_rest`).  And the line stands in the order in which its elements
have joined last (`InOrder.rest`), so that whoever is served has waited
longest (`InOrder.served`).
-/
import Mathlib.Data.List.Nodup

namespace RoundRobin

variable {α : Type}

structure Turn (α : Type) where
  leaves : α → Bool
  joins : List α
  serves : Bool

namespace Turn

variable (t : Turn α) (l : List α)

def line : List α := l.filter (fun x => !t.leaves x) ++ t.joins

def served : Option α := if t.serves then (t.line l).head? else none

def rest : List α := if t.serves then (t.line l).tail else t.line l

variable {t l}

/-- The one that is served, and those who are not. -/
theorem served_append_rest : (t.served l).toList ++ t.rest l = t.line l := by
  unfold served rest
  split
  · cases t.line l <;> rfl
  · rfl

theorem mem_line {x : α} : x ∈ t.line l ↔ (x ∈ l ∧ t.leaves x = false) ∨ x ∈ t.joins := by
  simp [line]

theorem served_mem {x : α} (h : t.served l = some x) : x ∈ t.line l := by
  rw [← served_append_rest, h]
  exact List.mem_cons_self

/-! ## Nobody overtakes -/

/-- Who stands in front stays in front when others leave and join. -/
theorem line_front {pre suf : List α} {p q : α} (h : l ++ t.joins = pre ++ q :: suf)
    (hq : q ∈ l → t.leaves q = false) (hp : p ∉ pre) :
    ∃ pre' suf', t.line l = pre' ++ q :: suf' ∧ p ∉ pre' := by
  have hfilter : ∀ {l : List α}, p ∉ l → p ∉ l.filter fun x => !t.leaves x := fun hp hm =>
    hp (List.mem_of_mem_filter hm)
  rcases List.append_eq_append_iff.mp h with ⟨as, hpre, hjoins⟩ | ⟨bs, hl, hsuf⟩
  · rw [hpre, List.mem_append, not_or] at hp
    refine ⟨l.filter (fun x => !t.leaves x) ++ as, suf, ?_, ?_⟩
    · rw [line, hjoins, List.append_assoc]
    · rw [List.mem_append, not_or]
      exact ⟨hfilter hp.1, hp.2⟩
  · cases bs with
    | nil =>
        refine ⟨l.filter fun x => !t.leaves x, suf, ?_, ?_⟩
        · rw [line, List.nil_append] at *
          rw [hsuf]
        · rw [hl, List.append_nil]
          exact hfilter hp
    | cons x bs =>
        obtain ⟨rfl, rfl⟩ := List.cons.inj hsuf
        have hx : t.leaves q = false := hq (by simp [hl])
        refine ⟨pre.filter fun x => !t.leaves x, bs.filter (fun x => !t.leaves x) ++ t.joins,
          ?_, hfilter hp⟩
        simp [line, hl, hx]

/-- While `q` waits, whoever does not stand in front of it is not served. -/
theorem front {pre suf : List α} {p q : α} (h : l ++ t.joins = pre ++ q :: suf)
    (hq : q ∈ l → t.leaves q = false) (hs : t.served l ≠ some q) (hp : p ∉ pre) :
    (∃ pre' suf', t.rest l = pre' ++ q :: suf' ∧ p ∉ pre') ∧ (p ≠ q → t.served l ≠ some p) := by
  obtain ⟨front, suf, hline, hpre⟩ := line_front h hq hp
  unfold served at hs ⊢
  unfold rest
  rw [hline] at hs ⊢
  split
  next hserves =>
    rw [if_pos hserves] at hs
    cases front with
    | nil => exact absurd rfl hs
    | cons y front =>
        rw [List.mem_cons, not_or] at hpre
        exact ⟨⟨front, _, rfl, hpre.2⟩, fun _ e => hpre.1 (Option.some.inj e).symm⟩
  · exact ⟨⟨front, _, rfl, hpre⟩, fun _ => nofun⟩

/-- Whoever stands further in front, read as a cut of the line. -/
theorem exists_front {p q : α} : ∀ {l : List α}, l.Nodup → [q, p].Sublist l →
    ∃ pre suf, l = pre ++ q :: suf ∧ p ∉ pre ∧ p ≠ q := by
  intro l hn hs
  induction l with
  | nil => exact nomatch hs
  | cons x l ih =>
      obtain ⟨hx, hl⟩ := List.nodup_cons.mp hn
      cases hs with
      | cons _ hs =>
          obtain ⟨pre, suf, rfl, hp, hne⟩ := ih hl hs
          refine ⟨x :: pre, suf, rfl, ?_, hne⟩
          rw [List.mem_cons, not_or]
          refine ⟨?_, hp⟩
          rintro rfl
          exact hx (hs.subset (by simp))
      | cons_cons _ hs =>
          refine ⟨[], l, rfl, List.not_mem_nil, ?_⟩
          rintro rfl
          exact hx (List.singleton_sublist.mp hs)

end Turn

/-! ## Nobody is lost -/

variable [DecidableEq α]

/-- Those who were there and those who have joined are those who have left,
the one that is served, and those who are there now. -/
theorem Turn.count_rest (t : Turn α) (l : List α) (x : α) :
    l.count x + t.joins.count x = (if t.leaves x then l.count x else 0) +
      (if t.served l = some x then 1 else 0) + (t.rest l).count x := by
  have hfilter : (l.filter fun x => !t.leaves x).count x =
      if t.leaves x then 0 else l.count x := by
    cases h : t.leaves x with
    | true =>
        rw [if_pos rfl]
        exact List.count_eq_zero.mpr fun hm => by simp [h] at hm
    | false =>
        rw [List.count_filter (by simp [h])]
        rfl
  have hserved : (t.served l).toList.count x = if t.served l = some x then 1 else 0 := by
    cases t.served l <;> simp [List.count_singleton]
  have hline : (t.line l).count x = _ := List.count_append
  rw [← Turn.served_append_rest, List.count_append, hserved, hfilter] at hline
  cases h : t.leaves x with
  | true =>
      simp only [h, if_true] at hline ⊢
      omega
  | false =>
      simp only [h, Bool.false_eq_true, if_false] at hline ⊢
      omega

/-! ## Places -/

theorem idxOf_filter_le (f : α → Bool) {x : α} (hx : f x = true) (l : List α) :
    (l.filter f).idxOf x ≤ l.idxOf x := by
  induction l with
  | nil => exact Nat.le_refl 0
  | cons y l ih =>
      by_cases he : y = x
      · subst he
        simp [hx]
      · rw [List.idxOf_cons_ne l he, List.filter_cons]
        split
        · rw [List.idxOf_cons_ne _ he]
          exact Nat.succ_le_succ ih
        · exact Nat.le_succ_of_le ih

/-- Whoever stays in the line moves up by one place in each turn that serves. -/
theorem Turn.idxOf_rest {t : Turn α} {l : List α} {x : α} (hx : x ∈ l)
    (hleaves : t.leaves x = false) (hserved : t.served l ≠ some x) :
    x ∈ t.rest l ∧
      (t.rest l).idxOf x + (if (t.served l).isSome then 1 else 0) ≤ l.idxOf x := by
  have hkeep : (!t.leaves x) = true := by simp [hleaves]
  have hmem : x ∈ t.line l := Turn.mem_line.mpr (.inl ⟨hx, hleaves⟩)
  have hline : (t.line l).idxOf x ≤ l.idxOf x := by
    rw [line, List.idxOf_append_of_mem (List.mem_filter.mpr ⟨hx, hkeep⟩)]
    exact idxOf_filter_le (fun y => !t.leaves y) hkeep l
  rw [← served_append_rest] at hmem hline
  cases hs : t.served l with
  | none =>
      rw [hs] at hmem hline
      exact ⟨hmem, hline⟩
  | some y =>
      have hne : y ≠ x := fun e => hserved (hs.trans (congrArg some e))
      rw [hs] at hmem hline
      have hcons : (y :: t.rest l).idxOf x = (t.rest l).idxOf x + 1 :=
        List.idxOf_cons_ne (t.rest l) hne
      refine ⟨(List.mem_cons.mp hmem).resolve_left (Ne.symm hne), ?_⟩
      exact hcons ▸ hline

/-! ## Order of joining -/

/-- How many have joined since `x` has, where `j` are all that have joined so far. -/
def since (j : List α) (x : α) : Nat := j.reverse.idxOf x

/-- Whoever stands further in front has joined earlier. -/
def InOrder (j l : List α) : Prop := l.Pairwise fun x y => since j y < since j x

theorem since_append_of_mem {j new : List α} {x : α} (h : x ∈ new) :
    since (j ++ new) x = since new x := by
  rw [since, List.reverse_append, List.idxOf_append_of_mem (List.mem_reverse.mpr h), since]

theorem since_append_of_notMem {j new : List α} {x : α} (h : x ∉ new) :
    since (j ++ new) x = new.length + since j x := by
  rw [since, List.reverse_append, List.idxOf_append_of_notMem (mt List.mem_reverse.mp h),
    List.length_reverse, since, Nat.add_comm]

theorem since_lt {new : List α} {x : α} (h : x ∈ new) : since new x < new.length := by
  rw [since, ← List.length_reverse]
  exact List.idxOf_lt_length_of_mem (List.mem_reverse.mpr h)

/-- Those who join together stand in their order. -/
theorem InOrder.self {new : List α} (h : new.Nodup) : InOrder new new := by
  induction new with
  | nil => exact .nil
  | cons x l ih =>
      obtain ⟨hx, hl⟩ := List.nodup_cons.mp h
      have hself : since (x :: l) x = l.length := by
        have := since_append_of_notMem (j := [x]) hx
        simpa [since] using this
      have hold : ∀ y ∈ l, since (x :: l) y = since l y := fun y hy =>
        since_append_of_mem (j := [x]) hy
      refine List.pairwise_cons.mpr ⟨fun y hy => ?_, ?_⟩
      · rw [hself, hold y hy]
        exact since_lt hy
      · refine (ih hl).imp_of_mem fun {a b} ha hb hab => ?_
        rw [hold a ha, hold b hb]
        exact hab

namespace InOrder

variable {t : Turn α} {j l : List α}

theorem line (h : InOrder j l) (hn : t.joins.Nodup) (hd : l.Disjoint t.joins) :
    InOrder (j ++ t.joins) (t.line l) := by
  have hold : ∀ x ∈ l, since (j ++ t.joins) x = t.joins.length + since j x := fun x hx =>
    since_append_of_notMem (hd hx)
  refine List.pairwise_append.mpr ⟨?_, ?_, fun x hx y hy => ?_⟩
  · refine List.Pairwise.sublist List.filter_sublist (h.imp_of_mem fun {a b} ha hb hab => ?_)
    rw [hold a ha, hold b hb]
    omega
  · refine (InOrder.self hn).imp_of_mem fun {a b} ha hb hab => ?_
    rw [since_append_of_mem ha, since_append_of_mem hb]
    exact hab
  · have hlt := since_lt hy
    rw [hold x (List.mem_of_mem_filter hx), since_append_of_mem hy]
    omega

theorem rest (h : InOrder j l) (hn : t.joins.Nodup) (hd : l.Disjoint t.joins) :
    InOrder (j ++ t.joins) (t.rest l) := by
  have hline := h.line hn hd
  rw [← Turn.served_append_rest] at hline
  exact (List.pairwise_append.mp hline).2.1

/-- Whoever is served has joined before all who are left. -/
theorem served (h : InOrder j l) (hn : t.joins.Nodup) (hd : l.Disjoint t.joins) {x : α}
    (hx : t.served l = some x) :
    ∀ y ∈ t.rest l, since (j ++ t.joins) y < since (j ++ t.joins) x := by
  have hline := h.line hn hd
  rw [← Turn.served_append_rest, hx] at hline
  exact (List.pairwise_cons.mp hline).1

end InOrder

end RoundRobin
