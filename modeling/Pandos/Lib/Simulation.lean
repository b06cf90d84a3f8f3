/-
# `Pandos.Lib.Simulation` — partial functions, step by step

A function that may fault returns an `Option`, and a program is a chain of
binds.  Two judgements about such programs are used, and both follow the
chain:

    Refines R x y    whenever `y` returns, so does `x`, and the results are related by `R`
    Yields x P       `x` returns, and its result satisfies `P`

`y` is the more abstract side of `Refines`: it is free to fail where the
design says a call must not happen, and `x` owes nothing there.

A data type is a state with a set of calls.  `calls` makes a sequence of them,
`specs` says what the sequence should amount to, and `calls_refine` reduces
the agreement of the two to single calls, each made where it is `Allowed`.
-/
import Mathlib.Data.Option.Basic

namespace Simulation

variable {α β γ δ : Type}

/-- `x` refines `y` up to `R`. -/
def Refines (R : α → β → Prop) (x : Option α) (y : Option β) : Prop :=
  ∀ b, y = some b → ∃ a, x = some a ∧ R a b

/-- `x` returns a result with property `P`. -/
def Yields (x : Option α) (P : α → Prop) : Prop := ∃ a, x = some a ∧ P a

/-- A test in front of a computation. -/
theorem guard_bind_eq_some {p : Prop} [Decidable p] {f : Unit → Option α} {a : α} :
    Option.bind (guard p) f = some a ↔ p ∧ f () = some a := by
  by_cases hp : p <;> simp [guard, hp, failure]

namespace Refines

variable {R : α → β → Prop} {S : γ → δ → Prop} {x : Option α} {y : Option β}

theorem pure {a : α} {b : β} (h : R a b) : Refines R (some a) (some b) :=
  fun _ e => ⟨a, rfl, Option.some.inj e ▸ h⟩

theorem fail : Refines R x none := fun _ e => nomatch e

theorem bind (h : Refines R x y) {f : α → Option γ} {g : β → Option δ}
    (hf : ∀ a b, R a b → Refines S (f a) (g b)) : Refines S (x.bind f) (y.bind g) := by
  intro d hd
  obtain ⟨b, hb, hgb⟩ := Option.bind_eq_some_iff.mp hd
  obtain ⟨a, ha, hab⟩ := h b hb
  obtain ⟨c, hc, hcd⟩ := hf a b hab d hgb
  exact ⟨c, Option.bind_eq_some_iff.mpr ⟨a, ha, hc⟩, hcd⟩

/-- The same computation on both sides, before anything differs. -/
theorem bind_same (z : Option α) {f : α → Option γ} {g : α → Option δ}
    (hf : ∀ a, Refines S (f a) (g a)) : Refines S (z.bind f) (z.bind g) := by
  intro d hd
  obtain ⟨a, ha, hga⟩ := Option.bind_eq_some_iff.mp hd
  obtain ⟨c, hc, hcd⟩ := hf a d hga
  exact ⟨c, Option.bind_eq_some_iff.mpr ⟨a, ha, hc⟩, hcd⟩

theorem ite {p : Prop} [Decidable p] {x' : Option α} {y' : Option β}
    (ht : p → Refines R x y) (hf : ¬ p → Refines R x' y') :
    Refines R (if p then x else x') (if p then y else y') := by
  by_cases hp : p
  · simpa [hp] using ht hp
  · simpa [hp] using hf hp

end Refines

namespace Yields

variable {x : Option α} {P : α → Prop}

/-- The result is described by cases as well. -/
theorem ite_ite {p : Prop} [Decidable p] {x' : Option α} {c c' : γ} {g : α → γ}
    (ht : p → Yields x fun a => g a = c) (hf : ¬ p → Yields x' fun a => g a = c') :
    Yields (if p then x else x') fun a => g a = if p then c else c' := by
  by_cases hp : p
  · simpa [hp] using ht hp
  · simpa [hp] using hf hp

end Yields

/-! ## Sequences of calls -/

section

variable {σ ι ρ : Type}

/-- The results of a sequence of calls, and the state it leads to. -/
def calls (exec : σ → ι → Option (ρ × σ)) : σ → List ι → Option (List ρ × σ)
  | s, [] => some ([], s)
  | s, c :: cs => do
      let (r, s) ← exec s c
      let (rs, s) ← calls exec s cs
      return (r :: rs, s)

/-- What a sequence of calls should amount to. -/
def specs (spec : α → ι → ρ × α) : α → List ι → List ρ × α
  | a, [] => ([], a)
  | a, c :: cs => ((spec a c).1 :: (specs spec (spec a c).2 cs).1, (specs spec (spec a c).2 cs).2)

/-- Every call of a sequence is made where it may be. -/
def Allowed (pre : α → ι → Prop) (spec : α → ι → ρ × α) : α → List ι → Prop
  | _, [] => True
  | a, c :: cs => pre a c ∧ Allowed pre spec (spec a c).2 cs

instance (pre : α → ι → Prop) [∀ a c, Decidable (pre a c)] (spec : α → ι → ρ × α) :
    ∀ (cs : List ι) (a : α), Decidable (Allowed pre spec a cs)
  | [], _ => inferInstanceAs (Decidable True)
  | c :: cs, a =>
      have : Decidable (Allowed pre spec (spec a c).2 cs) := instDecidableAllowed pre spec cs _
      inferInstanceAs (Decidable (_ ∧ _))

theorem Allowed.mono {pre pre' : α → ι → Prop} {spec : α → ι → ρ × α}
    (h : ∀ a c, pre a c → pre' a c) : ∀ {cs : List ι} {a : α}, Allowed pre spec a cs →
      Allowed pre' spec a cs
  | [], _, _ => trivial
  | _ :: _, _, ⟨hc, hcs⟩ => ⟨h _ _ hc, hcs.mono h⟩

/-- What is done by each call is done by any sequence of them. -/
theorem calls_refine {exec : σ → ι → Option (ρ × σ)} {spec : α → ι → ρ × α}
    {pre : α → ι → Prop} {R : σ → α → Prop}
    (h : ∀ {s a} c, R s a → pre a c → ∃ s', exec s c = some ((spec a c).1, s') ∧ R s' (spec a c).2)
    (cs : List ι) : ∀ {s a}, R s a → Allowed pre spec a cs →
      ∃ s', calls exec s cs = some ((specs spec a cs).1, s') ∧ R s' (specs spec a cs).2 := by
  induction cs with
  | nil => exact fun {s _} hR _ => ⟨s, rfl, hR⟩
  | cons c cs ih =>
      rintro s a hR ⟨hc, hcs⟩
      obtain ⟨s₁, hs₁, hR₁⟩ := h c hR hc
      obtain ⟨s₂, hs₂, hR₂⟩ := ih hR₁ hcs
      exact ⟨s₂, by simp [calls, specs, hs₁, hs₂], hR₂⟩

end

end Simulation
