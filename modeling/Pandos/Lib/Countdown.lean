/-
# `Pandos.Lib.Countdown` — a timer that runs down

Time comes in periods.  In each of them some time goes by, no more than the
timer has left; at its end somebody may read what is left by then, and the
timer may be loaded.

Loading what has just been read does not give any time away.  Only where
something else is loaded (`Period.fresh`) a new slice begins, so that the time
that goes by is bounded by what was left at first and by the slices that have
begun (`total_add_rest_le`).
-/
import Mathlib.Data.List.Basic

namespace Countdown

structure Period where
  elapsed : Nat
  reading : Option Nat
  load : Option Nat

namespace Period

variable (p : Period)

/-- What is left after the period. -/
def rest (left : Nat) : Nat := p.load.getD (left - p.elapsed)

/-- The period is possible with `left` in the timer. -/
def Fits (left : Nat) : Prop := p.elapsed ≤ left ∧ ∀ r ∈ p.reading, r = left - p.elapsed

instance (left : Nat) : Decidable (p.Fits left) :=
  inferInstanceAs (Decidable (_ ∧ _))

/-- Something is loaded that has not just been read. -/
def fresh : Bool := p.load.isSome && p.load != p.reading

variable {p} {slice left : Nat}

/-- Without a new slice the timer goes on. -/
theorem Fits.rest_eq (h : p.Fits left) (hf : p.fresh = false) : p.rest left = left - p.elapsed := by
  cases hl : p.load with
  | none => rw [rest, hl, Option.getD_none]
  | some v =>
      have hread : some v = p.reading := by simpa [fresh, hl] using hf
      rw [rest, hl, Option.getD_some]
      exact h.2 v hread.symm

theorem rest_le_of_fresh (hf : p.fresh = true) (hload : ∀ v ∈ p.load, v ≤ slice) :
    p.rest left ≤ slice := by
  cases hl : p.load with
  | none => simp [fresh, hl] at hf
  | some v =>
      rw [rest, hl, Option.getD_some]
      exact hload v hl

/-- One period. -/
theorem Fits.elapsed_add_rest_le (h : p.Fits left)
    (hload : p.fresh = true → ∀ v ∈ p.load, v ≤ slice) :
    p.elapsed + p.rest left ≤ left + slice * if p.fresh then 1 else 0 := by
  have hle := h.1
  cases hf : p.fresh with
  | false =>
      rw [h.rest_eq hf]
      simp only [Bool.false_eq_true, if_false]
      omega
  | true =>
      have hrest : p.rest left ≤ slice := rest_le_of_fresh hf (hload hf)
      simp only [if_true]
      omega

end Period

/-! ## A sequence of periods -/

variable {slice left : Nat} {ps qs : List Period}

def rest (left : Nat) (ps : List Period) : Nat := ps.foldl (fun left p => p.rest left) left

def Fits : Nat → List Period → Prop
  | _, [] => True
  | left, p :: ps => p.Fits left ∧ Fits (p.rest left) ps

instance decidableFits : ∀ left ps, Decidable (Fits left ps)
  | _, [] => .isTrue trivial
  | left, p :: ps =>
      haveI := decidableFits (p.rest left) ps
      inferInstanceAs (Decidable (p.Fits left ∧ Fits (p.rest left) ps))

def total : List Period → Nat
  | [] => 0
  | p :: ps => p.elapsed + total ps

theorem fits_append : ∀ {left : Nat},
    Fits left (ps ++ qs) ↔ Fits left ps ∧ Fits (rest left ps) qs := by
  induction ps with
  | nil => simp [Fits, rest]
  | cons p ps ih => simp [Fits, rest, ih, and_assoc]

theorem fits_concat {p : Period} :
    Fits left (ps ++ [p]) ↔ Fits left ps ∧ p.Fits (rest left ps) := by
  simp [fits_append, Fits]

theorem rest_concat (left : Nat) (ps : List Period) (p : Period) :
    rest left (ps ++ [p]) = p.rest (rest left ps) := by
  simp [rest]

/-- The time that goes by is at most what was left and the slices that begin. -/
theorem total_add_rest_le : ∀ {left : Nat}, Fits left ps →
    (∀ p ∈ ps, p.fresh = true → ∀ v ∈ p.load, v ≤ slice) →
      total ps + rest left ps ≤ left + slice * ps.countP Period.fresh := by
  induction ps with
  | nil => simp [total, rest]
  | cons p ps ih =>
      intro left h hload
      have hhead := h.1.elapsed_add_rest_le (hload p List.mem_cons_self)
      have htail := ih h.2 fun q hq => hload q (List.mem_cons_of_mem p hq)
      have htotal : total (p :: ps) = p.elapsed + total ps := rfl
      have hrest : rest left (p :: ps) = rest (p.rest left) ps := rfl
      rw [htotal, hrest, List.countP_cons, Nat.mul_add]
      omega

end Countdown
