/-
# `Pandos.Lib.Trace` — runs of a step function

A step function says where an event leads from a state, if it can happen
there.  A run is any sequence of events that can happen one after the other;
its trace keeps the state before and after each.

What holds at the start and is kept by every step holds all along a run
(`Run.invariant`).  `exec` computes the run of a list of events.

`Along` is a condition on each entry that may look at books kept of the
entries before it; the last entry comes with the books of the whole trace
(`along_concat`).

Events that change nothing of interest may stand anywhere in a run
(`Stutters`): two runs that differ in them only see the same
(`Stutters.observed_eq`).
-/

namespace Trace

variable {σ ε : Type}

/-- One entry of a trace. -/
structure Entry (σ ε : Type) where
  before : σ
  event : ε
  after : σ

inductive Run (step : σ → ε → Option σ) (s₀ : σ) : List (Entry σ ε) → σ → Prop where
  | nil : Run step s₀ [] s₀
  | snoc {tr s e s'} : Run step s₀ tr s → step s e = some s' → Run step s₀ (tr ++ [⟨s, e, s'⟩]) s'

namespace Run

variable {step : σ → ε → Option σ} {s₀ s s' : σ} {tr tr' : List (Entry σ ε)} {x : Entry σ ε}

theorem append (h : Run step s₀ tr s) (h' : Run step s tr' s') : Run step s₀ (tr ++ tr') s' := by
  induction h' with
  | nil => rwa [List.append_nil]
  | snoc _ hs ih =>
      rw [← List.append_assoc]
      exact ih.snoc hs

/-- What holds at the start, and is kept by every step of a kind, holds all
along a run of such steps. -/
theorem invariant {P : List (Entry σ ε) → σ → Prop} {G : Entry σ ε → Prop}
    (h : Run step s₀ tr s) (hG : ∀ x ∈ tr, G x) (h₀ : P [] s₀)
    (hstep : ∀ {tr s e s'}, P tr s → step s e = some s' → G ⟨s, e, s'⟩ →
      P (tr ++ [⟨s, e, s'⟩]) s') : P tr s := by
  induction h with
  | nil => exact h₀
  | snoc _ hs ih =>
      have hP := ih fun x hx => hG x (List.mem_append_left _ hx)
      exact hstep hP hs (hG _ (by simp))

/-- Each entry of a trace is a step from a state of the run. -/
theorem of_mem (h : Run step s₀ tr s) (hx : x ∈ tr) :
    ∃ tr₁ tr₂, tr = tr₁ ++ x :: tr₂ ∧ Run step s₀ tr₁ x.before ∧
      step x.before x.event = some x.after := by
  induction h with
  | nil => exact nomatch hx
  | @snoc tr s e s' h hs ih =>
      rcases List.mem_append.mp hx with hx | hx
      · obtain ⟨tr₁, tr₂, rfl, hrun, hstep⟩ := ih hx
        exact ⟨tr₁, tr₂ ++ [⟨s, e, s'⟩], by simp, hrun, hstep⟩
      · obtain rfl := List.mem_singleton.mp hx
        exact ⟨tr, [], rfl, h, hs⟩

theorem eq_of_nil (h : Run step s₀ [] s) : s = s₀ := by
  generalize htr : [] = tr at h
  cases h with
  | nil => rfl
  | snoc _ _ => simp at htr

/-- A run is cut at one of its entries. -/
theorem split (h : Run step s₀ (tr ++ x :: tr') s) :
    Run step s₀ tr x.before ∧ step x.before x.event = some x.after ∧ Run step x.after tr' s := by
  generalize htr : tr ++ x :: tr' = all at h
  induction h generalizing tr' with
  | nil => simp at htr
  | @snoc all s e s' h hs ih =>
      rcases List.eq_nil_or_concat tr' with rfl | ⟨l, z, rfl⟩
      · obtain ⟨rfl, hx⟩ := List.append_inj' htr rfl
        obtain rfl := List.singleton_inj.mp hx
        exact ⟨h, hs, .nil⟩
      · rw [List.concat_eq_append, ← List.cons_append, ← List.append_assoc] at htr
        obtain ⟨hall, hz⟩ := List.append_inj' htr rfl
        obtain rfl := List.singleton_inj.mp hz
        obtain ⟨hrun, hx, hrest⟩ := ih hall
        rw [List.concat_eq_append]
        exact ⟨hrun, hx, hrest.snoc hs⟩

/-- The events decide where a run leads. -/
theorem unique (h : Run step s₀ tr s) (h' : Run step s₀ tr' s')
    (hev : tr.map Entry.event = tr'.map Entry.event) : tr = tr' ∧ s = s' := by
  induction h generalizing tr' s' with
  | nil =>
      cases h' with
      | nil => exact ⟨rfl, rfl⟩
      | snoc _ _ => simp at hev
  | @snoc tr s e s₁ _ hs ih =>
      cases h' with
      | nil => simp at hev
      | @snoc tr' t e' t₁ h' hs' =>
          rw [List.map_append, List.map_append] at hev
          obtain ⟨hmap, he⟩ := List.append_inj' hev rfl
          obtain rfl : e = e' := List.singleton_inj.mp he
          obtain ⟨rfl, rfl⟩ := ih h' hmap
          obtain rfl := Option.some.inj (hs.symm.trans hs')
          exact ⟨rfl, rfl⟩

end Run

/-- What is read off the last entry comes last. -/
theorem filterMap_snoc {β : Type} {f : Entry σ ε → Option β} (tr : List (Entry σ ε))
    {x : Entry σ ε} {o : Option β} (hx : f x = o) :
    (tr ++ [x]).filterMap f = tr.filterMap f ++ o.toList := by
  rw [List.filterMap_append, List.filterMap_cons, hx]
  cases o with
  | none | some _ => rfl

/-! ## Books -/

/-- `P` holds at each entry, with the books as they are then. -/
def Along {γ α : Type} (after : γ → α → γ) (P : γ → α → Prop) : γ → List α → Prop
  | _, [] => True
  | g, x :: tr => P g x ∧ Along after P (after g x) tr

instance decidableAlong {γ α : Type} (after : γ → α → γ) (P : γ → α → Prop)
    [∀ g x, Decidable (P g x)] : ∀ g tr, Decidable (Along after P g tr)
  | _, [] => .isTrue trivial
  | g, x :: tr =>
      haveI := decidableAlong after P (after g x) tr
      inferInstanceAs (Decidable (P g x ∧ Along after P (after g x) tr))

theorem along_concat {γ α : Type} {after : γ → α → γ} {P : γ → α → Prop} {tr : List α} {x : α} :
    ∀ {g : γ}, Along after P g (tr ++ [x]) ↔ Along after P g tr ∧ P (tr.foldl after g) x := by
  induction tr with
  | nil =>
      intro g
      simp [Along]
  | cons y tr ih =>
      intro g
      rw [List.cons_append, Along, Along, ih, and_assoc, List.foldl_cons]

theorem Along.imp {γ α : Type} {after : γ → α → γ} {P Q : γ → α → Prop}
    (h : ∀ g x, P g x → Q g x) : ∀ {g : γ} {tr : List α}, Along after P g tr → Along after Q g tr
  | _, [], _ => trivial
  | g, x :: _, hx => ⟨h g x hx.1, Along.imp h hx.2⟩

/-! ## Silent events -/

section

variable {α β : Type} {step : σ → ε → Option σ} {norm : σ → α} {visible : ε → Bool}
  {G : Entry σ ε → Prop} {obs : α → ε → Option β} {s₀ s s' : σ} {tr tr' : List (Entry σ ε)}

/-- The events of a trace that are not silent. -/
def shown (visible : ε → Bool) (tr : List (Entry σ ε)) : List ε :=
  (tr.map Entry.event).filter visible

/-- What is observed along a trace, with `norm` for the state. -/
def observed (norm : σ → α) (obs : α → ε → Option β) (tr : List (Entry σ ε)) : List β :=
  tr.filterMap fun x => obs (norm x.before) x.event

@[simp] theorem shown_snoc {x : Entry σ ε} :
    shown visible (tr ++ [x]) = shown visible tr ++ [x.event].filter visible := by
  simp [shown]

@[simp] theorem observed_snoc {x : Entry σ ε} : observed norm obs (tr ++ [x]) =
    observed norm obs tr ++ (obs (norm x.before) x.event).toList := filterMap_snoc tr rfl

/-- Silent steps leave `norm` alone and show nothing; the others do not see
more than `norm`. -/
structure Stutters (step : σ → ε → Option σ) (norm : σ → α) (visible : ε → Bool)
    (obs : α → ε → Option β) (G : Entry σ ε → Prop) : Prop where
  silent : ∀ {s e s'}, visible e = false → G ⟨s, e, s'⟩ → step s e = some s' → norm s' = norm s
  unseen : ∀ {a e}, visible e = false → obs a e = none
  alike : ∀ {s t e s'}, visible e = true → norm s = norm t → step s e = some s' →
    ∃ t', step t e = some t' ∧ norm s' = norm t'

namespace Stutters

/-- The same run without its silent steps. -/
theorem exists_run (hst : Stutters step norm visible obs G) (h : Run step s₀ tr s)
    (hG : ∀ x ∈ tr, G x) : ∃ tr' s', Run step s₀ tr' s' ∧
      tr'.map Entry.event = shown visible tr ∧ observed norm obs tr = observed norm obs tr' ∧
      norm s = norm s' := by
  induction h with
  | nil => exact ⟨[], s₀, .nil, rfl, rfl, rfl⟩
  | @snoc tr s e s₁ _ hs ih =>
      obtain ⟨tr', s', hrun, hev, hobs, hnorm⟩ := ih fun x hx => hG x (List.mem_append_left _ hx)
      cases he : visible e with
      | false =>
          have hstay := hst.silent he (hG _ (by simp)) hs
          refine ⟨tr', s', hrun, ?_, ?_, hstay.trans hnorm⟩
          · simp [he, hev]
          · simp [hobs, hst.unseen he]
      | true =>
          obtain ⟨t, ht, hnorm'⟩ := hst.alike he hnorm hs
          refine ⟨_, t, hrun.snoc ht, ?_, ?_, hnorm'⟩
          · simp [he, hev]
          · simp [hobs, hnorm]

/-- Where silent steps stand makes no difference. -/
theorem observed_eq (hst : Stutters step norm visible obs G) (h : Run step s₀ tr s)
    (h' : Run step s₀ tr' s') (hG : ∀ x ∈ tr, G x) (hG' : ∀ x ∈ tr', G x)
    (hev : shown visible tr = shown visible tr') :
    observed norm obs tr = observed norm obs tr' ∧ norm s = norm s' := by
  obtain ⟨_, _, hrun, hmap, hobs, hnorm⟩ := hst.exists_run h hG
  obtain ⟨_, _, hrun', hmap', hobs', hnorm'⟩ := hst.exists_run h' hG'
  obtain ⟨rfl, rfl⟩ := hrun.unique hrun' (hmap.trans (hev.trans hmap'.symm))
  exact ⟨hobs.trans hobs'.symm, hnorm.trans hnorm'.symm⟩

end Stutters

end

/-! ## Lists of events -/

def exec (step : σ → ε → Option σ) (s : σ) : List ε → Option (List (Entry σ ε) × σ)
  | [] => some ([], s)
  | e :: es => do
      let s' ← step s e
      let (tr, s'') ← exec step s' es
      return (⟨s, e, s'⟩ :: tr, s'')

theorem exec_run {step : σ → ε → Option σ} {es : List ε} : ∀ {s s' : σ} {tr : List (Entry σ ε)},
    exec step s es = some (tr, s') → Run step s tr s' ∧ tr.map Entry.event = es := by
  induction es with
  | nil =>
      intro s s' tr h
      obtain ⟨rfl, rfl⟩ := Prod.mk.inj (Option.some.inj h)
      exact ⟨.nil, rfl⟩
  | cons e es ih =>
      intro s s' tr h
      obtain ⟨s₁, hs₁, h⟩ := Option.bind_eq_some_iff.mp h
      obtain ⟨⟨tr₁, s₂⟩, hs₂, h⟩ := Option.bind_eq_some_iff.mp h
      obtain ⟨rfl, rfl⟩ := Prod.mk.inj (Option.some.inj h)
      obtain ⟨hrun, hevents⟩ := ih hs₂
      refine ⟨(Run.snoc .nil hs₁).append hrun, ?_⟩
      rw [List.map_cons, hevents]

/-- What can be read off the run of a list of events. -/
theorem run_of_any {step : σ → ε → Option σ} {s : σ} {es : List ε}
    {p : List (Entry σ ε) × σ → Bool} (h : (exec step s es).any p = true) :
    ∃ tr s', Run step s tr s' ∧ tr.map Entry.event = es ∧ p (tr, s') = true := by
  cases hx : exec step s es with
  | none =>
      rw [hx] at h
      exact nomatch h
  | some x =>
      rw [hx] at h
      obtain ⟨hrun, hevents⟩ := exec_run hx
      exact ⟨x.1, x.2, hrun, hevents, h⟩

end Trace
