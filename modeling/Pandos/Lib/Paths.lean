/-
# `Pandos.Lib.Paths` — labelled steps and simulations

A system is a relation between a state, a label and a next state.  `Path` is
what a list of labels can lead to.  `T` `Simulates` `S` up to `R` if related
states can take the same steps, and then related states are reached by the
same labels (`Simulates.path`).  Two systems that simulate each other accept
the same lists of labels, from related states on (`Bisimilar.accepts_iff`).

`relabel` reads off each step another label, which may depend on the state.
-/

namespace Paths

variable {σ τ ε δ : Type}

/-- What a list of labels can lead to. -/
inductive Path (S : σ → ε → σ → Prop) (s₀ : σ) : List ε → σ → Prop where
  | nil : Path S s₀ [] s₀
  | snoc {es s e s'} : Path S s₀ es s → S s e s' → Path S s₀ (es ++ [e]) s'

/-- The list of labels leads somewhere. -/
def Accepted (S : σ → ε → σ → Prop) (s₀ : σ) (es : List ε) : Prop := ∃ s, Path S s₀ es s

def relabel (f : σ → ε → δ) (S : σ → ε → σ → Prop) (s : σ) (d : δ) (s' : σ) : Prop :=
  ∃ e, d = f s e ∧ S s e s'

/-- Whatever `S` does, `T` can do, from related states to related states. -/
structure Simulates (R : σ → τ → Prop) (S : σ → ε → σ → Prop) (T : τ → ε → τ → Prop) : Prop where
  step : ∀ {s t e s'}, R s t → S s e s' → ∃ t', T t e t' ∧ R s' t'

structure Bisimilar (R : σ → τ → Prop) (S : σ → ε → σ → Prop) (T : τ → ε → τ → Prop) : Prop where
  forth : Simulates R S T
  back : Simulates (fun t s => R s t) T S

variable {R : σ → τ → Prop} {S : σ → ε → σ → Prop} {T : τ → ε → τ → Prop} {s₀ s : σ} {t₀ t : τ}
  {es : List ε}

theorem Simulates.path (h : Simulates R S T) (h₀ : R s₀ t₀) (hp : Path S s₀ es s) :
    ∃ t, Path T t₀ es t ∧ R s t := by
  induction hp with
  | nil => exact ⟨t₀, .nil, h₀⟩
  | snoc _ hs ih =>
      obtain ⟨t, ht, hst⟩ := ih
      obtain ⟨t', ht', hst'⟩ := h.step hst hs
      exact ⟨t', ht.snoc ht', hst'⟩

theorem Bisimilar.accepts_iff (h : Bisimilar R S T) (h₀ : R s₀ t₀) (es : List ε) :
    Accepted S s₀ es ↔ Accepted T t₀ es := by
  constructor
  · rintro ⟨s, hs⟩
    obtain ⟨t, ht, -⟩ := h.forth.path h₀ hs
    exact ⟨t, ht⟩
  · rintro ⟨t, ht⟩
    obtain ⟨s, hs, -⟩ := h.back.path h₀ ht
    exact ⟨s, hs⟩

end Paths
