/-
# `Pandos.Lib.Chain` — null-terminated lists threaded through a table

`Seg next h l e`: following `next` from the pointer `h` visits exactly the
elements of `l`, in this order, and ends at the pointer `e`.  A
null-terminated list is a segment that ends at `none`.

The lemmas say how a segment changes under the two writes a singly linked
list is built from: redirecting the link of one element past the next
(`Seg.remove_after`), and hooking in a new element (`Seg.insert_after`,
`Seg.push`).  `bypass next x` is the table with every pointer to `x` led past
it, wherever `x` may be (`Seg.bypass`).
-/
import Mathlib.Data.List.Nodup
import Mathlib.Logic.Function.Basic

namespace Intrusive

variable {α : Type}

/-- The elements met from `h` up to `e`. -/
def Seg (next : α → Option α) : Option α → List α → Option α → Prop
  | h, [], e => h = e
  | h, a :: l, e => h = some a ∧ Seg next (next a) l e

@[simp] theorem seg_nil {next : α → Option α} {h e : Option α} : Seg next h [] e ↔ h = e :=
  Iff.rfl

@[simp] theorem seg_cons {next : α → Option α} {h e : Option α} {a : α} {l : List α} :
    Seg next h (a :: l) e ↔ h = some a ∧ Seg next (next a) l e := Iff.rfl

namespace Seg

variable {next next' : α → Option α}

theorem append : ∀ {l₁ l₂ : List α} {h e : Option α},
    Seg next h (l₁ ++ l₂) e ↔ ∃ m, Seg next h l₁ m ∧ Seg next m l₂ e
  | [], _, h, _ => by simp
  | a :: l₁, l₂, h, e => by
      simp only [List.cons_append, seg_cons, @append l₁]
      constructor
      · rintro ⟨ha, m, h1, h2⟩
        exact ⟨m, ⟨ha, h1⟩, h2⟩
      · rintro ⟨m, ⟨ha, h1⟩, h2⟩
        exact ⟨ha, m, h1, h2⟩

/-- Only the links of the elements matter. -/
theorem congr : ∀ {l : List α} {h e : Option α}, Seg next h l e →
    (∀ x ∈ l, next' x = next x) → Seg next' h l e
  | [], _, _, hs, _ => hs
  | a :: l, _, _, hs, ha =>
      ⟨hs.1, by
        rw [ha a (by simp)]
        exact hs.2.congr fun x hx => ha x (List.mem_cons_of_mem _ hx)⟩

theorem head_eq {l : List α} {h : Option α} (hs : Seg next h l none) : h = l.head? := by
  cases l with
  | nil => exact hs
  | cons a l => exact hs.1

/-- The pointer a segment ends at is the link of its last element. -/
theorem next_of_mem {l₁ l₂ : List α} {a : α} {h e : Option α} (hs : Seg next h (l₁ ++ a :: l₂) e) :
    Seg next (next a) l₂ e := by
  obtain ⟨m, _, h2⟩ := append.mp hs
  exact h2.2

variable [DecidableEq α]

/-- Writing the link of an element that is not met. -/
theorem update_of_not_mem {l : List α} {h e v : Option α} {x : α} (hs : Seg next h l e)
    (hx : x ∉ l) : Seg (Function.update next x v) h l e :=
  hs.congr fun y hy => by
    have : y ≠ x := fun e => hx (e ▸ hy)
    simp [this]

/-- Redirecting `a` past the element `x` that follows it. -/
theorem remove_after {l₁ l₂ : List α} {a x : α} {h e : Option α}
    (hs : Seg next h (l₁ ++ a :: x :: l₂) e) (hnd : (l₁ ++ a :: x :: l₂).Nodup) :
    Seg (Function.update next a (next x)) h (l₁ ++ a :: l₂) e := by
  obtain ⟨m, h1, ha, hx, h2⟩ := append.mp hs
  have hn := List.nodup_append.mp hnd
  have ha₁ : a ∉ l₁ := fun e => hn.2.2 a e a (by simp) rfl
  have ha₂ : a ∉ l₂ := fun e => by
    have := (List.nodup_cons.mp hn.2.1).1
    exact this (List.mem_cons_of_mem _ e)
  refine append.mpr ⟨m, h1.update_of_not_mem ha₁, ha, ?_⟩
  rw [Function.update_self]
  exact h2.update_of_not_mem ha₂

/-- Hooking in a new element `x` behind `a`. -/
theorem insert_after {l₁ l₂ : List α} {a x : α} {h e : Option α}
    (hs : Seg next h (l₁ ++ a :: l₂) e) (hnd : (l₁ ++ a :: l₂).Nodup)
    (hx : x ∉ l₁ ++ a :: l₂) :
    Seg (Function.update (Function.update next x (next a)) a (some x)) h (l₁ ++ a :: x :: l₂) e := by
  obtain ⟨m, h1, ha, h2⟩ := append.mp hs
  have hn := List.nodup_append.mp hnd
  have ha₁ : a ∉ l₁ := fun e => hn.2.2 a e a (by simp) rfl
  have ha₂ : a ∉ l₂ := (List.nodup_cons.mp hn.2.1).1
  simp only [List.mem_append, List.mem_cons, not_or] at hx
  refine append.mpr ⟨m, (h1.update_of_not_mem hx.1).update_of_not_mem ha₁, ha, ?_⟩
  rw [Function.update_self]
  refine ⟨rfl, ?_⟩
  rw [Function.update_of_ne hx.2.1, Function.update_self]
  exact (h2.update_of_not_mem hx.2.2).update_of_not_mem ha₂

/-- Hooking in a new element at the end. -/
theorem insert_last {l : List α} {a x : α} {h : Option α} (hs : Seg next h (l ++ [a]) none)
    (hnd : (l ++ [a]).Nodup) (hx : x ∉ l ++ [a]) (hnext : next x = none) :
    Seg (Function.update next a (some x)) h (l ++ [a] ++ [x]) none := by
  have ha : next a = none := hs.next_of_mem
  have hself : Function.update next x (next a) = next :=
    Function.update_eq_self_iff.mpr (ha.trans hnext.symm)
  have h := hs.insert_after hnd hx
  rw [hself] at h
  rwa [List.append_assoc]

/-- Hooking in a new element at the front. -/
theorem push {l : List α} {x : α} {h e : Option α} (hs : Seg next h l e) (hx : x ∉ l) :
    Seg (Function.update next x h) (some x) (x :: l) e :=
  ⟨rfl, by rw [Function.update_self]; exact hs.update_of_not_mem hx⟩

end Seg

/-! ## Leading past an element -/

section

variable [DecidableEq α]

/-- The pointer `h`, led past `x`. -/
def redirect (next : α → Option α) (x : α) (h : Option α) : Option α :=
  if h = some x then next x else h

/-- `x` leads nowhere, and nothing leads to it. -/
def bypass (next : α → Option α) (x : α) : α → Option α := fun a =>
  if a = x then none else redirect next x (next a)

variable {next : α → Option α} {x a b : α}

theorem redirect_of_ne {h : Option α} (hne : h ≠ some x) : redirect next x h = h := if_neg hne

theorem bypass_self : bypass next x x = none := if_pos rfl

theorem bypass_of_ne (ha : a ≠ x) (hne : next a ≠ some x) : bypass next x a = next a := by
  rw [bypass, if_neg ha, redirect_of_ne hne]

theorem bypass_eq_some : bypass next x a = some b ↔
    a ≠ x ∧ (next a = some x ∧ next x = some b ∨ next a ≠ some x ∧ next a = some b) := by
  unfold bypass redirect
  grind

/-- Where `x` stood, if it did, the list closes up. -/
theorem Seg.bypass {l : List α} {h : Option α} (hs : Seg next h l none) (hnd : l.Nodup) (x : α) :
    Seg (bypass next x) (redirect next x h) (l.erase x) none := by
  induction l generalizing h with
  | nil =>
      obtain rfl : h = none := hs
      exact redirect_of_ne nofun
  | cons a l ih =>
      obtain ⟨rfl, hs⟩ := hs
      obtain ⟨ha, hnd⟩ := List.nodup_cons.mp hnd
      have ih := ih hs hnd
      by_cases hax : a = x
      · subst hax
        have hne : next a ≠ some a := fun e => ha (List.mem_of_head? (hs.head_eq ▸ e))
        rw [redirect_of_ne hne, List.erase_of_not_mem ha] at ih
        rw [List.erase_cons_head, redirect, if_pos rfl]
        exact ih
      · have hne : (some a : Option α) ≠ some x := fun e => hax (Option.some.inj e)
        rw [redirect_of_ne hne, List.erase_cons_tail (by simpa using hax)]
        refine ⟨rfl, ?_⟩
        rw [Intrusive.bypass, if_neg hax]
        exact ih

end

end Intrusive
