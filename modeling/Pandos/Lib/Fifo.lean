/-
# `Pandos.Lib.Fifo` — replacement in turn

A pool of `n` places is filled in the order of their indices, and then each
new item replaces the one at the place after the last.  The places are taken
in `turns`: 0, 1, …, n-1, 0, 1, …

No ages are kept, and yet the item that is replaced is the oldest one
(`turns_oldest`).  The place is found from two things only, which places are
free and which was taken last (`place_eq`).  What the places hold are the last
`n` items (`Filled.mem_iff`).
-/
import Mathlib.Algebra.GroupWithZero.Nat
import Mathlib.Data.List.FinRange
import Pandos.Lib.RoundRobin

namespace Fifo

open RoundRobin

variable {n : Nat} [NeZero n] {m j : Nat} {i : Fin n}

/-- The places of the first `m` items. -/
def turns (n : Nat) [NeZero n] (m : Nat) : List (Fin n) := (List.range m).map (Fin.ofNat n)

@[simp] theorem turns_length (m : Nat) : (turns n m).length = m := by simp [turns]

theorem turns_succ (m : Nat) : turns n (m + 1) = turns n m ++ [Fin.ofNat n m] := by
  rw [turns, List.range_succ, List.map_append]
  rfl

theorem turns_add (m j : Nat) :
    turns n (m + j) = turns n m ++ (List.range j).map fun d => Fin.ofNat n (m + d) := by
  induction j with
  | zero => simp
  | succ j ih =>
      rw [← Nat.add_assoc, turns_succ, ih, List.range_succ, List.map_append, List.append_assoc]
      rfl

theorem getElem?_turns {d : Nat} {c : Fin n} (h : (turns n m)[d]? = some c) :
    c = Fin.ofNat n d := by
  rw [turns, List.getElem?_map, Option.map_eq_some_iff] at h
  obtain ⟨d', hd', rfl⟩ := h
  obtain ⟨_, hd'⟩ := List.getElem?_eq_some_iff.mp hd'
  rw [List.getElem_range] at hd'
  rw [hd']

/-- The turns go on where they were. -/
theorem getElem?_of_append {a b : List (Fin n)} {m' d : Nat} {c : Fin n} (ha : a = turns n m)
    (hab : a ++ b = turns n m') (h : b[d]? = some c) : c = Fin.ofNat n (m + d) := by
  refine getElem?_turns (m := m') ?_
  rw [← hab, List.getElem?_append_right (by rw [ha, turns_length]; omega), ha, turns_length,
    Nat.add_sub_cancel_left, h]

theorem length_of_append {a b : List (Fin n)} {m' : Nat} (ha : a = turns n m)
    (hab : a ++ b = turns n m') : m + b.length = m' := by
  have hlen := congrArg List.length hab
  rwa [ha, List.length_append, turns_length, turns_length] at hlen

/-- Places are taken in the order of their indices at first. -/
theorem mem_turns : i ∈ turns n m ↔ (i : Nat) < m := by
  simp only [turns, List.mem_map, List.mem_range]
  constructor
  · rintro ⟨j, hj, rfl⟩
    exact Nat.lt_of_le_of_lt (Nat.mod_le j n) hj
  · intro hi
    exact ⟨i, hi, Fin.ofNat_val_eq_self i⟩

/-- A place has its next turn `n` items later. -/
theorem ofNat_add_ne (hj : 0 < j) (hjn : j < n) : Fin.ofNat n (m + j) ≠ Fin.ofNat n m := by
  intro h
  have hmod : (m + j) % n = m % n := congrArg Fin.val h
  have hzero := Nat.sub_mod_eq_zero_of_mod_eq hmod
  rw [Nat.add_sub_cancel_left, Nat.mod_eq_of_lt hjn] at hzero
  omega

theorem ofNat_add_self (m : Nat) : Fin.ofNat n (m + n) = Fin.ofNat n m :=
  Fin.ext (Nat.add_mod_right m n)

/-- The last `n` items are as old as they are many. -/
theorem since_turns (hj : j < n) : since (turns n (m + 1 + j)) (Fin.ofNat n m) = j := by
  have hrest : Fin.ofNat n m ∉ (List.range j).map fun d => Fin.ofNat n (m + 1 + d) := by
    rw [List.mem_map]
    rintro ⟨d, hd, heq⟩
    have hdj := List.mem_range.mp hd
    rw [Nat.add_assoc] at heq
    exact ofNat_add_ne (by omega) (by omega) heq
  rw [turns_add, since_append_of_notMem hrest, turns_succ,
    since_append_of_mem (List.mem_singleton_self _)]
  simp [since]

/-- Every place has had its last turn among the last `n` items. -/
theorem exists_turn (hm : n ≤ m) (i : Fin n) : ∃ j m', j < n ∧ m = m' + 1 + j ∧
    i = Fin.ofNat n m' := by
  have hi := i.isLt
  have hlt : (m - 1 - i) % n < n := Nat.mod_lt _ (by omega)
  have hle : (m - 1 - i) % n ≤ m - 1 - i := Nat.mod_le _ _
  refine ⟨(m - 1 - i) % n, m - 1 - (m - 1 - i) % n, hlt, by omega, Fin.ext ?_⟩
  have hval : m - 1 - (m - 1 - i) % n = i + n * ((m - 1 - i) / n) := by
    have hdiv := Nat.mod_add_div (m - 1 - i) n
    omega
  show (i : Nat) = (m - 1 - (m - 1 - i) % n) % n
  rw [hval, Nat.add_mul_mod_self_left, Nat.mod_eq_of_lt hi]

/-- Once all places are taken, the next item replaces the oldest one. -/
theorem turns_oldest (hm : n ≤ m) (hi : i ≠ Fin.ofNat n m) :
    since (turns n m) i < since (turns n m) (Fin.ofNat n m) := by
  obtain ⟨j, m', hj, rfl, rfl⟩ := exists_turn hm i
  have hold : since (turns n (m' + 1 + j)) (Fin.ofNat n (m' + 1 + j)) = n - 1 := by
    have hpos := Nat.pos_of_neZero n
    have hself : Fin.ofNat n (m' + 1 + j) = Fin.ofNat n (m' + 1 + j - n) := by
      rw [← ofNat_add_self (m' + 1 + j - n), Nat.sub_add_cancel hm]
    have hlast := since_turns (n := n) (m := m' + 1 + j - n) (j := n - 1) (by omega)
    rw [show m' + 1 + j - n + 1 + (n - 1) = m' + 1 + j by omega] at hlast
    rw [hself]
    exact hlast
  rw [since_turns hj, hold]
  rcases Nat.lt_or_ge j (n - 1) with h | h
  · exact h
  · have hjn : m' + 1 + j = m' + n := by omega
    rw [hjn, ofNat_add_self] at hi
    exact absurd rfl hi

/-! ## Finding the place -/

/-- The first free place, or the one after the last. -/
def place (free : Fin n → Bool) (last : Fin n) : Fin n :=
  match (List.finRange n).find? free with
  | some i => i
  | none => Fin.ofNat n (last + 1)

theorem place_eq {free : Fin n → Bool} {last : Fin n} (hfree : ∀ i, free i = true ↔ m ≤ i)
    (hlast : 0 < m → last = Fin.ofNat n (m - 1)) : place free last = Fin.ofNat n m := by
  unfold place
  cases hf : (List.finRange n).find? free with
  | some i =>
      -- all before `i` are taken, and `i` is not
      have hi : m ≤ i := (hfree i).mp (List.find?_some hf)
      have hmi : m = i := by
        by_contra hne
        have hlt : m < n := by omega
        have hbefore : free ⟨m, hlt⟩ = true := (hfree _).mpr (le_refl m)
        obtain ⟨-, l₁, l₂, hsplit, hnot⟩ := List.find?_eq_some_iff_append.mp hf
        have hmem : (⟨m, hlt⟩ : Fin n) ∈ l₁ := by
          have hsorted := List.pairwise_lt_finRange n
          have hall := List.mem_finRange (⟨m, hlt⟩ : Fin n)
          rw [hsplit] at hall hsorted
          rcases List.mem_append.mp hall with h | h
          · exact h
          · have hge : i ≤ ⟨m, hlt⟩ := by
              rcases List.mem_cons.mp h with h | h
              · exact h.ge
              · exact ((List.pairwise_cons.mp (List.pairwise_append.mp hsorted).2.1).1 _ h).le
            have hge : (i : Nat) ≤ m := hge
            omega
        have hnone := hnot _ hmem
        rw [hbefore] at hnone
        exact nomatch hnone
      subst hmi
      exact (Fin.ofNat_val_eq_self i).symm
  | none =>
      have hnone := List.find?_eq_none.mp hf
      have hm : n ≤ m := by
        by_contra hlt
        have hmn : m < n := by omega
        exact hnone ⟨m, hmn⟩ (List.mem_finRange _) ((hfree _).mpr (le_refl m))
      have hpos := Nat.pos_of_neZero n
      rw [hlast (by omega)]
      apply Fin.ext
      show ((m - 1) % n + 1) % n = m % n
      rw [Nat.mod_add_mod, Nat.sub_add_cancel (by omega)]

/-! ## What the places hold -/

/-- The items `l` have been put in their places one after the other, and
before there was `f₀`. -/
structure Filled {α : Type} (f₀ : Fin n → α) (l : List α) (f : Fin n → α) : Prop where
  before : ∀ i : Fin n, l.length ≤ i → f i = f₀ i
  recent : ∀ {d a}, l[d]? = some a → l.length ≤ d + n → f (Fin.ofNat n d) = a

namespace Filled

variable {α : Type} {f₀ f : Fin n → α} {l l₁ l₂ : List α} {a : α}

theorem nil (f₀ : Fin n → α) : Filled f₀ [] f₀ := ⟨fun _ _ => rfl, fun h => nomatch h⟩

theorem concat (h : Filled f₀ l f) (a : α) :
    Filled f₀ (l ++ [a]) (Function.update f (Fin.ofNat n l.length) a) := by
  constructor
  · intro i hi
    rw [List.length_append, List.length_singleton] at hi
    rw [Function.update_of_ne, h.before i (by omega)]
    rintro rfl
    exact absurd (Nat.mod_le l.length n) (Nat.not_le.mpr hi)
  · intro d b hd hle
    rw [List.length_append, List.length_singleton] at hle
    rcases Nat.lt_trichotomy d l.length with hlt | rfl | hgt
    · rw [List.getElem?_append_left hlt] at hd
      rw [Function.update_of_ne, h.recent hd (by omega)]
      intro heq
      -- less than `n` turns later the place is another one
      obtain ⟨j, hj⟩ := Nat.exists_eq_add_of_lt hlt
      have hne : Fin.ofNat n (d + (j + 1)) ≠ Fin.ofNat n d :=
        ofNat_add_ne (Nat.succ_pos j) (by omega)
      rw [← Nat.add_assoc, ← hj] at hne
      exact hne heq.symm
    · rw [List.getElem?_append_right (le_refl _), Nat.sub_self] at hd
      rw [Function.update_self]
      exact Option.some.inj hd
    · have hnone : (l ++ [a])[d]? = none := List.getElem?_eq_none (by simp; omega)
      simp [hnone] at hd

/-- The last `n` items are there, and nothing else. -/
theorem mem_iff (h : Filled f₀ l f) (hn : n ≤ l.length) :
    (∃ i, f i = a) ↔ a ∈ l.drop (l.length - n) := by
  rw [List.mem_iff_getElem?]
  constructor
  · rintro ⟨i, rfl⟩
    obtain ⟨j, m', hj, hm', rfl⟩ := exists_turn hn i
    have hget : l[m']? = some l[m'] := List.getElem?_eq_getElem (by omega)
    refine ⟨m' - (l.length - n), ?_⟩
    rw [List.getElem?_drop, h.recent hget (by omega), ← hget]
    congr 1
    omega
  · rintro ⟨d, hd⟩
    rw [List.getElem?_drop] at hd
    exact ⟨_, h.recent hd (by omega)⟩

/-- An item that is not there any more has had `n` others after it. -/
theorem apart (h : Filled f₀ (l₁ ++ a :: l₂) f) (ha : ∀ i, f i ≠ a) : n ≤ l₂.length := by
  by_contra hlt
  refine ha (Fin.ofNat n l₁.length) (h.recent ?_ ?_)
  · rw [List.getElem?_append_right (le_refl _), Nat.sub_self, List.getElem?_cons_zero]
  · rw [List.length_append, List.length_cons]
    omega

end Filled

end Fifo
