/-
# `Pandos.Forest` — what the process tree looks like

The four tree fields hold lists of siblings: `p_child` leads to the first
child and `p_next_sib` to the next sibling, so that every live PCB is reached
by at most one of the two, along which PCBs get younger (`Tree.Ok`).  The
back links `p_prev_sib` may be missing, since `unlinkChild` loses some, but
never wrong; and a PCB may have no place in any list, since `outChild` loses
the siblings of a first child.

    outChild, removeChild    take a PCB out of its list    (`Cut`, `Ok.cut`)
    insertChild              adds a last child             (`Hook`, `Ok.hook`)
    treeWalk                 gives up a PCB and what is below it   (`Killed`)

What `outChild` needs for this is `PrevAgrees`: if some PCB says that `p` is
next, then `p` says that it is previous.

`Tree.Exact` is the stronger condition that every PCB with a parent has its
place among the children of a live parent.  It survives a termination of `p`
if `p` is not a first child with siblings, and then exactly what is below `p`
is given up (`Killed.mem_iff`).
-/
import Mathlib.Data.Finset.Card
import Mathlib.Data.Finset.Filter
import Mathlib.Data.Finset.Lattice.Fold
import Mathlib.Data.Fintype.Card
import Mathlib.Logic.Relation
import Mathlib.Order.Lattice.Nat
import Pandos.Tree

namespace Pandos

namespace Tree

/-- `p` is somebody's first child or next sibling. -/
def Linked (t : Tree) (p : PcbPtr) : Prop :=
  (∃ x, t.pChild x = some p) ∨ ∃ x, t.pNextSib x = some p

/-- The links of the PCBs in `live`; `age` grows along them. -/
structure Ok (t : Tree) (live : Finset PcbPtr) (age : PcbPtr → Nat) : Prop where
  child_live : ∀ {x y}, t.pChild x = some y → x ∈ live ∧ y ∈ live
  next_live : ∀ {x y}, t.pNextSib x = some y → x ∈ live ∧ y ∈ live
  child_inj : ∀ {x x' y}, t.pChild x = some y → t.pChild x' = some y → x = x'
  next_inj : ∀ {x x' y}, t.pNextSib x = some y → t.pNextSib x' = some y → x = x'
  apart : ∀ {x x' y}, t.pChild x = some y → t.pNextSib x' ≠ some y
  child_prnt : ∀ {x y}, t.pChild x = some y → t.pPrnt y = some x
  next_prnt : ∀ {x y}, t.pNextSib x = some y → t.pPrnt y = t.pPrnt x ∧ t.pPrnt x ≠ none
  prev_next : ∀ {x y}, t.pPrevSib y = some x → t.pNextSib x = some y
  child_age : ∀ {x y}, t.pChild x = some y → age x < age y
  next_age : ∀ {x y}, t.pNextSib x = some y → age x < age y

/-- Parents are live and lead to their children. -/
def Exact (t : Tree) (live : Finset PcbPtr) : Prop :=
  ∀ x ∈ live, ∀ y, t.pPrnt x = some y → y ∈ live ∧ t.Linked x

/-- `t'` is `t` with `p` taken out of the list it is in.  What followed `p`
may have taken its place, or be left without one. -/
structure Cut (t t' : Tree) (p : PcbPtr) : Prop where
  prnt_self : t'.pPrnt p = none
  prnt_keep : ∀ {x}, x ≠ p → t'.pPrnt x = t.pPrnt x
  child : ∀ {x y}, t'.pChild x = some y →
    y ≠ p ∧ (t.pChild x = some y ∨ t.pChild x = some p ∧ t.pNextSib p = some y)
  child_keep : ∀ {x}, t.pChild x ≠ some p → t'.pChild x = t.pChild x
  next : ∀ {x y}, t'.pNextSib x = some y → x ≠ p ∧ y ≠ p ∧
    (t.pNextSib x = some y ∨ t.pNextSib x = some p ∧ t.pNextSib p = some y)
  next_keep : ∀ {x}, x ≠ p → t.pNextSib x ≠ some p → t'.pNextSib x = t.pNextSib x
  prev : ∀ {x y}, t'.pPrevSib y = some x →
    t.pPrevSib y = some x ∧ y ≠ p ∧ t.pNextSib p ≠ some y
  relink : ∀ {x}, t.pPrevSib p = some x → t'.pNextSib x = t.pNextSib p

variable {t t' : Tree} {live : Finset PcbPtr} {age : PcbPtr → Nat} {p x y : PcbPtr}

namespace Cut

theorem not_linked (h : Cut t t' p) : ¬ t'.Linked p := by
  rintro (⟨x, hx⟩ | ⟨x, hx⟩)
  · exact (h.child hx).1 rfl
  · exact (h.next hx).2.1 rfl

theorem next_self (h : Cut t t' p) : t'.pNextSib p = none := by
  cases hn : t'.pNextSib p with
  | none => rfl
  | some y => exact absurd rfl (h.next hn).1

theorem prnt_sub (h : Cut t t' p) (hx : t'.pPrnt x = some y) : t.pPrnt x = some y := by
  have hxp : x ≠ p := by
    rintro rfl
    rw [h.prnt_self] at hx
    exact nomatch hx
  rwa [h.prnt_keep hxp] at hx

/-- An element that was in no list is in none. -/
theorem linked_of (h : Cut t t' p) (hx : t'.Linked x) : t.Linked x := by
  rcases hx with ⟨w, hw⟩ | ⟨w, hw⟩
  · rcases (h.child hw).2 with hw | ⟨-, hw⟩
    · exact .inl ⟨w, hw⟩
    · exact .inr ⟨p, hw⟩
  · rcases (h.next hw).2.2 with hw | ⟨-, hw⟩
    · exact .inr ⟨w, hw⟩
    · exact .inr ⟨p, hw⟩

end Cut

theorem Ok.cut (h : t.Ok live age) (hc : Cut t t' p) : t'.Ok live age where
  child_live hx := by
    rcases (hc.child hx).2 with hx | ⟨hx, hp⟩
    · exact h.child_live hx
    · exact ⟨(h.child_live hx).1, (h.next_live hp).2⟩
  next_live hx := by
    rcases (hc.next hx).2.2 with hx | ⟨hx, hp⟩
    · exact h.next_live hx
    · exact ⟨(h.next_live hx).1, (h.next_live hp).2⟩
  child_inj hx hx' := by
    rcases (hc.child hx).2 with h1 | ⟨h1, hp⟩
    · rcases (hc.child hx').2 with h2 | ⟨-, hp⟩
      · exact h.child_inj h1 h2
      · exact absurd hp (h.apart h1)
    · rcases (hc.child hx').2 with h2 | ⟨h2, -⟩
      · exact absurd hp (h.apart h2)
      · exact h.child_inj h1 h2
  next_inj hx hx' := by
    obtain ⟨hxp, -, h1⟩ := hc.next hx
    obtain ⟨hxp', -, h2⟩ := hc.next hx'
    rcases h1 with h1 | ⟨h1, hp⟩
    · rcases h2 with h2 | ⟨-, hp⟩
      · exact h.next_inj h1 h2
      · exact absurd (h.next_inj h1 hp) hxp
    · rcases h2 with h2 | ⟨h2, -⟩
      · exact absurd (h.next_inj h2 hp) hxp'
      · exact h.next_inj h1 h2
  apart hx hx' := by
    obtain ⟨hxp', -, h2⟩ := hc.next hx'
    rcases (hc.child hx).2 with h1 | ⟨h1, hp⟩
    · rcases h2 with h2 | ⟨-, hp⟩
      · exact h.apart h1 h2
      · exact h.apart h1 hp
    · rcases h2 with h2 | ⟨h2, -⟩
      · exact hxp' (h.next_inj h2 hp)
      · exact h.apart h1 h2
  child_prnt hx := by
    obtain ⟨hyp, h1⟩ := hc.child hx
    rw [hc.prnt_keep hyp]
    rcases h1 with h1 | ⟨h1, hp⟩
    · exact h.child_prnt h1
    · rw [(h.next_prnt hp).1]
      exact h.child_prnt h1
  next_prnt hx := by
    obtain ⟨hxp, hyp, h1⟩ := hc.next hx
    rw [hc.prnt_keep hyp, hc.prnt_keep hxp]
    rcases h1 with h1 | ⟨h1, hp⟩
    · exact h.next_prnt h1
    · rw [(h.next_prnt hp).1]
      exact h.next_prnt h1
  prev_next hy := by
    obtain ⟨hy, hyp, hpy⟩ := hc.prev hy
    have hx := h.prev_next hy
    have hxp : _ ≠ p := fun e => hpy (e ▸ hx)
    rw [hc.next_keep hxp fun e => hyp (Option.some.inj (hx.symm.trans e))]
    exact hx
  child_age hx := by
    rcases (hc.child hx).2 with hx | ⟨hx, hp⟩
    · exact h.child_age hx
    · exact (h.child_age hx).trans (h.next_age hp)
  next_age hx := by
    rcases (hc.next hx).2.2 with hx | ⟨hx, hp⟩
    · exact h.next_age hx
    · exact (h.next_age hx).trans (h.next_age hp)

/-- … and if what followed `p` still has a place, nobody is lost. -/
theorem Exact.cut (h : t.Exact live) (hc : Cut t t' p)
    (hre : ∀ {y}, t.pNextSib p = some y → t'.Linked y) : t'.Exact live := by
  intro x hx y hxy
  obtain ⟨hy, hl⟩ := h x hx y (hc.prnt_sub hxy)
  refine ⟨hy, ?_⟩
  have hxp : x ≠ p := by
    rintro rfl
    rw [hc.prnt_self] at hxy
    exact nomatch hxy
  rcases hl with ⟨w, hw⟩ | ⟨w, hw⟩
  · have hwp : t.pChild w ≠ some p := fun e => hxp (Option.some.inj (hw.symm.trans e))
    exact .inl ⟨w, (hc.child_keep hwp).trans hw⟩
  · by_cases hwp : w = p
    · exact hre (hwp ▸ hw)
    · have hne : t.pNextSib w ≠ some p := fun e => hxp (Option.some.inj (hw.symm.trans e))
      exact .inr ⟨w, (hc.next_keep hwp hne).trans hw⟩

end Tree

/-! ## The functions -/

section

variable {t : Tree} {live : Finset PcbPtr} {age : PcbPtr → Nat} {p c : PcbPtr}

@[simp] theorem unlinkChild_child (t : Tree) (p : PcbPtr) : (unlinkChild t p).pChild = t.pChild := by
  unfold unlinkChild
  dsimp only
  split <;> split <;> rfl

@[simp] theorem unlinkChild_prnt (t : Tree) (p : PcbPtr) :
    (unlinkChild t p).pPrnt = Function.update t.pPrnt p none := by
  unfold unlinkChild
  dsimp only
  split <;> split <;> rfl

theorem unlinkChild_next (hprev : t.pPrevSib p ≠ some p) (x : PcbPtr) :
    (unlinkChild t p).pNextSib x =
      if x = p then none else if t.pPrevSib p = some x then t.pNextSib p else t.pNextSib x := by
  unfold unlinkChild
  by_cases hx : x = p
  · subst hx
    cases hp : t.pPrevSib x with
    | none =>
        cases hn : t.pNextSib x <;> simp [Tree.setPrnt, Tree.setPrevSib, Tree.setNextSib, hp, hn]
    | some a =>
        have hax : x ≠ a := fun e => hprev (e ▸ hp)
        cases hn : t.pNextSib x <;>
          simp [Tree.setPrnt, Tree.setPrevSib, Tree.setNextSib, hp, hn, hax]
  · cases hp : t.pPrevSib p with
    | none =>
        cases hn : t.pNextSib p <;>
          simp [Tree.setPrnt, Tree.setPrevSib, Tree.setNextSib, hp, hn, hx]
    | some a =>
        have hap : p ≠ a := fun e => hprev (e ▸ hp)
        cases hn : t.pNextSib p <;>
          simp [Tree.setPrnt, Tree.setPrevSib, Tree.setNextSib, hp, hn, hx, hap,
            Function.update_apply, eq_comm]

/-- The back link of what follows `p` is lost. -/
theorem unlinkChild_prev (hprev : t.pPrevSib p ≠ some p) (hnext : t.pNextSib p ≠ some p)
    (x : PcbPtr) : (unlinkChild t p).pPrevSib x =
      if x = p then none else if t.pNextSib p = some x then none else t.pPrevSib x := by
  unfold unlinkChild
  cases hp : t.pPrevSib p with
  | none =>
      cases hn : t.pNextSib p with
      | none =>
          by_cases hx : x = p
          · simp [Tree.setPrnt, hp, hn, hx]
          · simp [Tree.setPrnt, hp, hn, hx]
      | some b =>
          by_cases hx : x = p
          · have hpb : p ≠ b := fun e => hnext (e ▸ hn)
            simp [Tree.setPrnt, Tree.setPrevSib, Tree.setNextSib, hp, hn, hx, hpb]
          · simp [Tree.setPrnt, Tree.setPrevSib, Tree.setNextSib, hp, hn, hx,
              Function.update_apply, eq_comm]
  | some a =>
      have hap : p ≠ a := fun e => hprev (e ▸ hp)
      cases hn : t.pNextSib p with
      | none =>
          by_cases hx : x = p
          · simp [Tree.setPrnt, Tree.setPrevSib, Tree.setNextSib, hp, hn, hx, hap]
          · simp [Tree.setPrnt, Tree.setPrevSib, Tree.setNextSib, hp, hn, hx, hap]
      | some b =>
          have hpb : p ≠ b := fun e => hnext (e ▸ hn)
          by_cases hx : x = p
          · simp [Tree.setPrnt, Tree.setPrevSib, Tree.setNextSib, hp, hn, hx, hap, hpb]
          · simp [Tree.setPrnt, Tree.setPrevSib, Tree.setNextSib, hp, hn, hx, hap,
              Function.update_apply, eq_comm]

namespace Tree

variable {x y : PcbPtr}

theorem Ok.next_ne (h : t.Ok live age) (p : PcbPtr) : t.pNextSib p ≠ some p := fun e =>
  (h.next_age e).false

theorem Ok.prev_ne (h : t.Ok live age) (p : PcbPtr) : t.pPrevSib p ≠ some p := fun e =>
  h.next_ne p (h.prev_next e)

/-- A first child has nobody before it. -/
theorem Ok.prev_none (h : t.Ok live age) (hx : t.pChild x = some p) : t.pPrevSib p = none := by
  cases hp : t.pPrevSib p with
  | none => rfl
  | some a => exact absurd (h.prev_next hp) (h.apart hx)

/-- Who has no parent is in no list. -/
theorem Ok.of_prnt_none (h : t.Ok live age) (hp : t.pPrnt p = none) :
    ¬ t.Linked p ∧ t.pNextSib p = none ∧ t.pPrevSib p = none := by
  have hnext : ∀ x, t.pNextSib x ≠ some p := fun x hx => by
    obtain ⟨h1, h2⟩ := h.next_prnt hx
    exact h2 (h1.symm.trans hp)
  refine ⟨?_, ?_, ?_⟩
  · rintro (⟨x, hx⟩ | ⟨x, hx⟩)
    · exact absurd (hp.symm.trans (h.child_prnt hx)) nofun
    · exact hnext x hx
  · cases hn : t.pNextSib p with
    | none => rfl
    | some y => exact absurd hp (h.next_prnt hn).2
  · cases hv : t.pPrevSib p with
    | none => rfl
    | some a => exact absurd (h.prev_next hv) (hnext a)

end Tree

open Pandos.Tree

/-- `removeChild` cuts the first child out, and its sibling moves up. -/
theorem removeChild_cut (h : t.Ok live age) (hc : t.pChild p = some c) :
    ∃ t', removeChild t p = (some c, t') ∧ Cut t t' c ∧ t'.pChild p = t.pNextSib c := by
  have hprev := h.prev_none hc
  have hpc : c ≠ p := fun e => (h.child_age hc).ne (congrArg age e).symm
  let s := t.setChild p (t.pNextSib c)
  have hsp : s.pPrevSib c ≠ some c := h.prev_ne c
  have hsn : s.pNextSib c ≠ some c := h.next_ne c
  have hn := fun x => unlinkChild_next hsp x
  have hv := fun x => unlinkChild_prev hsp hsn x
  have hsprev : s.pPrevSib c = none := hprev
  simp only [hsprev, reduceCtorEq, if_false] at hn
  refine ⟨unlinkChild s c, by simp [removeChild, hc, s], ?_, by simp [s, Tree.setChild]⟩
  refine ⟨by simp, fun hx => by simp [hx, s, Tree.setChild], ?_, ?_, ?_, ?_, ?_, ?_⟩
  · intro x y hx
    rw [unlinkChild_child] at hx
    by_cases hxp : x = p
    · subst hxp
      have hx : t.pNextSib c = some y := by simpa [s, Tree.setChild] using hx
      exact ⟨fun e => h.next_ne c (e ▸ hx), .inr ⟨hc, hx⟩⟩
    · have hx : t.pChild x = some y := by simpa [s, Tree.setChild, hxp] using hx
      exact ⟨fun e => hxp (h.child_inj (e ▸ hx) hc), .inl hx⟩
  · intro x hx
    have hxp : x ≠ p := fun e => hx (e ▸ hc)
    simp [s, Tree.setChild, hxp]
  · intro x y hx
    rw [hn] at hx
    obtain ⟨hxc, hx⟩ := Option.ite_none_left_eq_some.mp hx
    exact ⟨hxc, fun e => h.apart hc (e ▸ hx), .inl hx⟩
  · intro x hxc _
    rw [hn, if_neg hxc]
    rfl
  · intro x y hy
    rw [hv] at hy
    obtain ⟨hyc, hy⟩ := Option.ite_none_left_eq_some.mp hy
    obtain ⟨hcy, hy⟩ := Option.ite_none_left_eq_some.mp hy
    exact ⟨hy, hyc, hcy⟩
  · exact fun hx => absurd (hprev.symm.trans hx) nofun

/-- The back link of `p` is what `p_next_sib` says. -/
def PrevAgrees (t : Tree) (p : PcbPtr) : Prop := ∀ x, t.pNextSib x = some p → t.pPrevSib p = some x

/-- `outChild` cuts `p` out, if its back link is right. -/
theorem outChild_cut (h : t.Ok live age) (hp : PrevAgrees t p) : Cut t (outChild t p) p := by
  cases hprnt : t.pPrnt p with
  | none =>
      obtain ⟨hl, hn, hv⟩ := h.of_prnt_none hprnt
      have hout : outChild t p = t := by simp [outChild, hprnt]
      rw [hout]
      refine ⟨hprnt, fun _ => rfl, fun hx => ⟨?_, .inl hx⟩, fun _ => rfl,
        fun hx => ⟨?_, ?_, .inl hx⟩, fun _ _ => rfl, fun hy => ⟨hy, ?_, ?_⟩,
        fun hx => absurd (hv.symm.trans hx) nofun⟩
      · rintro rfl
        exact hl (.inl ⟨_, hx⟩)
      · rintro rfl
        exact absurd (hn.symm.trans hx) nofun
      · rintro rfl
        exact hl (.inr ⟨_, hx⟩)
      · rintro rfl
        exact absurd (hv.symm.trans hy) nofun
      · rw [hn]
        exact nofun
  | some q =>
      let s := if t.pChild q = some p then t.setChild q (t.pPrevSib p) else t
      have hout : outChild t p = unlinkChild s p := by simp [outChild, hprnt, s]
      have hsnext : s.pNextSib = t.pNextSib := by simp only [s]; split <;> rfl
      have hsprev : s.pPrevSib = t.pPrevSib := by simp only [s]; split <;> rfl
      have hsprnt : s.pPrnt = t.pPrnt := by simp only [s]; split <;> rfl
      have hschild : ∀ x, s.pChild x = if t.pChild x = some p then none else t.pChild x := by
        intro x
        by_cases hx : t.pChild x = some p
        · obtain rfl : q = x := Option.some.inj (hprnt.symm.trans (h.child_prnt hx))
          simp [s, hx, Tree.setChild, h.prev_none hx]
        · by_cases hq : t.pChild q = some p
          · have hxq : x ≠ q := fun e => hx (e ▸ hq)
            simp [s, hx, hq, hxq, Tree.setChild]
          · simp [s, hx, hq]
      have hn := fun x => unlinkChild_next (t := s) (hsprev ▸ h.prev_ne p) x
      have hv := fun x => unlinkChild_prev (t := s) (hsprev ▸ h.prev_ne p) (hsnext ▸ h.next_ne p) x
      simp only [hsnext, hsprev] at hn hv
      rw [hout]
      refine ⟨by simp, fun hx => by simp [hx, hsprnt], ?_, ?_, ?_, ?_, ?_, ?_⟩
      · intro x y hx
        rw [unlinkChild_child, hschild] at hx
        obtain ⟨hxp, hx⟩ := Option.ite_none_left_eq_some.mp hx
        exact ⟨fun e => hxp (e ▸ hx), .inl hx⟩
      · intro x hx
        rw [unlinkChild_child, hschild, if_neg hx]
      · intro x y hx
        rw [hn] at hx
        obtain ⟨hxp, hx⟩ := Option.ite_none_left_eq_some.mp hx
        split at hx
        next hpx =>
          exact ⟨hxp, fun e => h.next_ne p (e ▸ hx), .inr ⟨h.prev_next hpx, hx⟩⟩
        next hpx => exact ⟨hxp, fun e => hpx (hp x (e ▸ hx)), .inl hx⟩
      · intro x hxp hx
        have hpx : t.pPrevSib p ≠ some x := fun e => hx (h.prev_next e)
        rw [hn, if_neg hxp, if_neg hpx]
      · intro x y hy
        rw [hv] at hy
        obtain ⟨hyp, hy⟩ := Option.ite_none_left_eq_some.mp hy
        obtain ⟨hpy, hy⟩ := Option.ite_none_left_eq_some.mp hy
        exact ⟨hy, hyp, hpy⟩
      · intro x hx
        have hxp : x ≠ p := fun e => h.prev_ne p (e ▸ hx)
        rw [hn, if_neg hxp, if_pos hx]

/-! ## The walk -/

namespace Tree

/-- `y` is met on the way up from `x`. -/
def Below (t : Tree) (x y : PcbPtr) : Prop := Relation.TransGen (fun a b => t.pPrnt a = some b) x y

/-- There is a way from `x` to `y` through first children and next siblings. -/
def Path (t : Tree) (x y : PcbPtr) : Prop :=
  Relation.TransGen (fun a b => t.pChild a = some b ∨ t.pNextSib a = some b) x y

/-- Such a way begins with the first child of `x`. -/
def Reaches (t : Tree) (x y : PcbPtr) : Prop := ∃ c, t.pChild x = some c ∧ (y = c ∨ t.Path c y)

theorem Reaches.path {t : Tree} {x y : PcbPtr} (h : t.Reaches x y) : t.Path x y := by
  obtain ⟨c, hc, rfl | hp⟩ := h
  · exact .single (.inl hc)
  · exact .head (.inl hc) hp

theorem Reaches.trans {t : Tree} {x y z : PcbPtr} (h : t.Reaches x y) (hp : t.Path y z) :
    t.Reaches x z := by
  obtain ⟨c, hc, rfl | hcy⟩ := h
  · exact ⟨_, hc, .inr hp⟩
  · exact ⟨c, hc, .inr (Relation.TransGen.trans hcy hp)⟩

/-- The ways of `t'` are ways of `t`. -/
structure Shorter (t t' : Tree) : Prop where
  child : ∀ {x y}, t'.pChild x = some y → t.Reaches x y
  next : ∀ {x y}, t'.pNextSib x = some y → t.Path x y

namespace Shorter

variable {t₁ t₂ : Tree}

theorem refl (t : Tree) : Shorter t t := ⟨fun h => ⟨_, h, .inl rfl⟩, fun h => .single (.inr h)⟩

theorem path (h : Shorter t t₁) (hp : t₁.Path x y) : t.Path x y := by
  induction hp with
  | single hxy =>
      rcases hxy with hxy | hxy
      · exact (h.child hxy).path
      · exact h.next hxy
  | tail _ hyz ih =>
      rcases hyz with hyz | hyz
      · exact Relation.TransGen.trans ih (h.child hyz).path
      · exact Relation.TransGen.trans ih (h.next hyz)

theorem reaches (h : Shorter t t₁) (hr : t₁.Reaches x y) : t.Reaches x y := by
  obtain ⟨c, hc, rfl | hp⟩ := hr
  · exact h.child hc
  · exact (h.child hc).trans (h.path hp)

theorem trans (h : Shorter t t₁) (h' : Shorter t₁ t₂) : Shorter t t₂ :=
  ⟨fun hx => h.reaches (h'.child hx), fun hx => h.path (h'.next hx)⟩

end Shorter

/-- Taking a PCB out makes no new ways. -/
theorem Cut.shorter (h : Cut t t' p) : Shorter t t' := by
  constructor
  case child =>
    intro x y hx
    rcases (h.child hx).2 with hx | ⟨hx, hp⟩
    · exact ⟨y, hx, .inl rfl⟩
    · exact ⟨p, hx, .inr (.single (.inr hp))⟩
  case next =>
    intro x y hx
    rcases (h.next hx).2.2 with hx | ⟨hx, hp⟩
    · exact .single (.inr hx)
    · exact .head (.inr hx) (.single (.inr hp))

theorem Below.mono {t t' : Tree} {x y : PcbPtr} (h : t'.Below x y)
    (hsub : ∀ {x y}, t'.pPrnt x = some y → t.pPrnt x = some y) : t.Below x y :=
  Relation.TransGen.mono (fun _ _ h => hsub h) _ _ h

/-- A PCB without links can be given up. -/
theorem Ok.erase (h : t.Ok live age) (hl : ¬ t.Linked c) (hchild : t.pChild c = none)
    (hnext : t.pNextSib c = none) : t.Ok (live.erase c) age :=
  { h with
    child_live := by
      intro x y hx
      have hxc : x ≠ c := by
        rintro rfl
        exact absurd (hchild.symm.trans hx) nofun
      have hyc : y ≠ c := fun e => hl (.inl ⟨x, e ▸ hx⟩)
      exact ⟨Finset.mem_erase.mpr ⟨hxc, (h.child_live hx).1⟩,
        Finset.mem_erase.mpr ⟨hyc, (h.child_live hx).2⟩⟩
    next_live := by
      intro x y hx
      have hxc : x ≠ c := by
        rintro rfl
        exact absurd (hnext.symm.trans hx) nofun
      have hyc : y ≠ c := fun e => hl (.inr ⟨x, e ▸ hx⟩)
      exact ⟨Finset.mem_erase.mpr ⟨hxc, (h.next_live hx).1⟩,
        Finset.mem_erase.mpr ⟨hyc, (h.next_live hx).2⟩⟩ }

/-- Who has no first child is nobody's parent. -/
theorem Exact.childless (he : t.Exact live) (h : t.Ok live age) (hchild : t.pChild c = none) :
    ∀ x ∈ live, t.pPrnt x ≠ some c := by
  -- back along the siblings, to the first child
  suffices hsuff : ∀ n x, age x ≤ n → x ∈ live → t.pPrnt x ≠ some c from
    fun x => hsuff (age x) x le_rfl
  intro n
  induction n with
  | zero =>
      intro x hx hlive hprnt
      rcases (he x hlive c hprnt).2 with ⟨w, hw⟩ | ⟨w, hw⟩
      · exact absurd (h.child_age hw) (by omega)
      · exact absurd (h.next_age hw) (by omega)
  | succ n ih =>
      intro x hx hlive hprnt
      rcases (he x hlive c hprnt).2 with ⟨w, hw⟩ | ⟨w, hw⟩
      · obtain rfl : c = w := Option.some.inj (hprnt.symm.trans (h.child_prnt hw))
        exact absurd (hchild.symm.trans hw) nofun
      · have hage := h.next_age hw
        exact ih w (by omega) (h.next_live hw).1 ((h.next_prnt hw).1.symm.trans hprnt)

theorem Exact.erase (he : t.Exact live) (h : t.Ok live age) (hchild : t.pChild c = none) :
    t.Exact (live.erase c) := by
  intro x hx y hxy
  have hlive := Finset.mem_of_mem_erase hx
  obtain ⟨hy, hl⟩ := he x hlive y hxy
  refine ⟨Finset.mem_erase.mpr ⟨?_, hy⟩, hl⟩
  rintro rfl
  exact he.childless h hchild x hlive hxy

/-- `t'` is what is left of `t` when the PCBs below `p` have been given up:
`vs`, in this order. -/
structure Walked (t t' : Tree) (live : Finset PcbPtr) (age : PcbPtr → Nat) (p : PcbPtr)
    (vs : List PcbPtr) : Prop where
  ok : t'.Ok (live \ vs.toFinset) age
  nodup : vs.Nodup
  sub : ∀ v ∈ vs, v ∈ live ∧ age p < age v ∧ t.Below v p
  childless : t'.pChild p = none
  next : ∀ {x}, x ∉ vs → t'.pNextSib x = t.pNextSib x
  prnt : ∀ {x}, x ∉ vs → t'.pPrnt x = t.pPrnt x
  prnt_sub : ∀ {x y}, t'.pPrnt x = some y → t.pPrnt x = some y
  linked : ∀ {x}, t'.Linked x → t.Linked x
  shorter : Shorter t t'
  reached : ∀ v ∈ vs, t.Reaches p v
  exact : t.Exact live → t'.Exact (live \ vs.toFinset)

namespace Walked

variable {t₁ t₂ t₃ : Tree} {vs ws : List PcbPtr}

theorem nil (h : t.Ok live age) (hc : t.pChild p = none) : Walked t t live age p [] where
  ok := by simpa using h
  nodup := .nil
  sub := by simp
  childless := hc
  next _ := rfl
  prnt _ := rfl
  prnt_sub h := h
  linked h := h
  shorter := .refl t
  reached := by simp
  exact he := by simpa using he

theorem not_mem (h : Walked t t₁ live age p vs) : p ∉ vs := fun hp => (h.sub p hp).2.1.false

/-- The first child `c` of `p` and what is below it, then the rest. -/
theorem cons (h : t.Ok live age) (hc : t.pChild p = some c) (hcut : Cut t t₁ c)
    (hp : t₁.pChild p = t.pNextSib c) (h₁ : Walked t₁ t₂ live age c vs)
    (h₂ : Walked t₂ t₃ ((live \ vs.toFinset).erase c) age p ws) :
    Walked t t₃ live age p (vs ++ [c] ++ ws) := by
  have hage := h.child_age hc
  have hbelow : t.Below c p := .single (h.child_prnt hc)
  have hset : live \ (vs ++ [c] ++ ws).toFinset =
      (live \ vs.toFinset).erase c \ ws.toFinset := by
    ext x
    simp only [List.toFinset_append, List.toFinset_cons, List.toFinset_nil, Finset.mem_sdiff,
      Finset.mem_union, Finset.mem_erase, Finset.mem_insert, Finset.notMem_empty, or_false]
    tauto
  have hws : ∀ v ∈ ws, v ≠ c ∧ v ∉ vs := fun v hv => by
    have hmem := (h₂.sub v hv).1
    rw [Finset.mem_erase, Finset.mem_sdiff, List.mem_toFinset] at hmem
    exact ⟨hmem.1, hmem.2.2⟩
  have hout : ∀ {x}, x ∉ vs ++ [c] ++ ws → x ∉ vs ∧ x ≠ c ∧ x ∉ ws := by
    intro x hx
    simpa [not_or, and_assoc] using hx
  have hshort₁ := hcut.shorter
  have hshort₂ := hshort₁.trans h₁.shorter
  refine ⟨hset ▸ h₂.ok, ?_, ?_, h₂.childless, ?_, ?_, ?_, ?_, hshort₂.trans h₂.shorter, ?_, ?_⟩
  · refine List.nodup_append.mpr ⟨List.nodup_append.mpr ⟨h₁.nodup, by simp, ?_⟩, h₂.nodup, ?_⟩
    · intro a ha b hb e
      obtain rfl : b = c := by simpa using hb
      exact h₁.not_mem (e ▸ ha)
    · intro a ha b hb e
      rcases List.mem_append.mp ha with ha | ha
      · exact (hws b hb).2 (e ▸ ha)
      · exact (hws b hb).1 (e ▸ by simpa using ha)
  · intro v hv
    rcases List.mem_append.mp hv with hv | hv
    · rcases List.mem_append.mp hv with hv | hv
      · obtain ⟨hlive, hv', hb⟩ := h₁.sub v hv
        exact ⟨hlive, hage.trans hv', (hb.mono hcut.prnt_sub).trans hbelow⟩
      · obtain rfl : v = c := by simpa using hv
        exact ⟨(h.child_live hc).2, hage, hbelow⟩
    · obtain ⟨hlive, hv', hb⟩ := h₂.sub v hv
      exact ⟨(Finset.mem_sdiff.mp (Finset.mem_of_mem_erase hlive)).1, hv',
        (hb.mono h₁.prnt_sub).mono hcut.prnt_sub⟩
  · intro x hx
    obtain ⟨hxv, hxc, hxw⟩ := hout hx
    rw [h₂.next hxw, h₁.next hxv]
    exact hcut.next_keep hxc (h.apart hc)
  · intro x hx
    obtain ⟨hxv, hxc, hxw⟩ := hout hx
    rw [h₂.prnt hxw, h₁.prnt hxv]
    exact hcut.prnt_keep hxc
  · exact fun hx => hcut.prnt_sub (h₁.prnt_sub (h₂.prnt_sub hx))
  · exact fun hx => hcut.linked_of (h₁.linked (h₂.linked hx))
  · intro v hv
    rcases List.mem_append.mp hv with hv | hv
    · rcases List.mem_append.mp hv with hv | hv
      · exact ⟨c, hc, .inr (hshort₁.path (h₁.reached v hv).path)⟩
      · obtain rfl : v = c := by simpa using hv
        exact ⟨v, hc, .inl rfl⟩
    · exact hshort₂.reaches (h₂.reached v hv)
  · intro he
    have he₁ : t₁.Exact live := he.cut hcut fun hy => .inl ⟨p, hp.trans hy⟩
    rw [hset]
    exact h₂.exact ((h₁.exact he₁).erase h₁.ok h₁.childless)

end Walked

end Tree

/-- The rounds of `terminate_Process_rec` below `p` come to an end, and give
up what is below `p`. -/
theorem treeWalkChildren_spec (n : Nat) : ∀ (t : Tree) (live : Finset PcbPtr) (p : PcbPtr)
    (fuel : Nat), (live.filter (age p < age ·)).card ≤ n → t.Ok live age → 2 * n + 1 ≤ fuel →
      ∃ vs t', treeWalkChildren fuel t p = some (vs, t') ∧ Walked t t' live age p vs := by
  induction n with
  | zero =>
      intro t live p fuel hn h hf
      obtain ⟨fuel, rfl⟩ : ∃ m, fuel = m + 1 := ⟨fuel - 1, by omega⟩
      cases hc : t.pChild p with
      | none => exact ⟨[], t, by simp [treeWalkChildren, removeChild, hc], .nil h hc⟩
      | some c =>
          have hmem : c ∈ live.filter (age p < age ·) :=
            Finset.mem_filter.mpr ⟨(h.child_live hc).2, h.child_age hc⟩
          exact absurd (Finset.card_pos.mpr ⟨c, hmem⟩) (by omega)
  | succ n ih =>
      intro t live p fuel hn h hf
      obtain ⟨fuel, rfl⟩ : ∃ m, fuel = m + 2 := ⟨fuel - 2, by omega⟩
      cases hc : t.pChild p with
      | none => exact ⟨[], t, by simp [treeWalkChildren, removeChild, hc], .nil h hc⟩
      | some c =>
          obtain ⟨t₁, hrem, hcut, hp⟩ := removeChild_cut h hc
          have hage := h.child_age hc
          have hmem : c ∈ live.filter (age p < age ·) :=
            Finset.mem_filter.mpr ⟨(h.child_live hc).2, hage⟩
          have hless : ∀ {s : Finset PcbPtr}, s ⊆ (live.filter (age p < age ·)).erase c →
              s.card ≤ n := fun hs => by
            have h1 := Finset.card_le_card hs
            have h2 := Finset.card_erase_of_mem hmem
            omega
          -- the subtree of `c`
          have hout : outChild t₁ c = t₁ := by simp [outChild, hcut.prnt_self]
          obtain ⟨vs, t₂, hvs, hw₁⟩ := ih t₁ live c fuel
            (hless fun x hx => by
              obtain ⟨hx, hcx⟩ := Finset.mem_filter.mp hx
              exact Finset.mem_erase.mpr ⟨fun e => hcx.ne (congrArg age e).symm,
                Finset.mem_filter.mpr ⟨hx, hage.trans hcx⟩⟩) (h.cut hcut) (by omega)
          have hdrop : t₂.Ok ((live \ vs.toFinset).erase c) age :=
            hw₁.ok.erase (fun hl => hcut.not_linked (hw₁.linked hl)) hw₁.childless
              ((hw₁.next hw₁.not_mem).trans hcut.next_self)
          -- the other children
          obtain ⟨ws, t₃, hws, hw₂⟩ := ih t₂ _ p (fuel + 1)
            (hless fun x hx => by
              obtain ⟨hx, hpx⟩ := Finset.mem_filter.mp hx
              obtain ⟨hxc, hx⟩ := Finset.mem_erase.mp hx
              exact Finset.mem_erase.mpr ⟨hxc,
                Finset.mem_filter.mpr ⟨(Finset.mem_sdiff.mp hx).1, hpx⟩⟩) hdrop (by omega)
          refine ⟨vs ++ [c] ++ ws, t₃, ?_, .cons h hc hcut hp hw₁ hw₂⟩
          rw [treeWalkChildren, hrem]
          simp only [treeWalk, hout, hvs, Option.bind_eq_bind, Option.bind_some, hws,
            Option.pure_def]

/-- More fuel changes nothing. -/
theorem treeWalk_mono (fuel : Nat) : ∀ {t : Tree} {p : PcbPtr} {r : List PcbPtr × Tree},
    (treeWalk fuel t p = some r → treeWalk (fuel + 1) t p = some r) ∧
      (treeWalkChildren fuel t p = some r → treeWalkChildren (fuel + 1) t p = some r) := by
  induction fuel with
  | zero => exact fun {_ _ _} => ⟨nofun, nofun⟩
  | succ fuel ih =>
      intro t p r
      constructor
      · intro h
        rw [treeWalk] at h ⊢
        obtain ⟨x, hx, h⟩ := Option.bind_eq_some_iff.mp h
        exact Option.bind_eq_some_iff.mpr ⟨x, ih.2 hx, h⟩
      · intro h
        rw [treeWalkChildren] at h ⊢
        split at h
        next hrem => exact h
        next c t₁ hrem =>
          obtain ⟨x, hx, h⟩ := Option.bind_eq_some_iff.mp h
          obtain ⟨y, hy, h⟩ := Option.bind_eq_some_iff.mp h
          exact Option.bind_eq_some_iff.mpr ⟨x, ih.1 hx,
            Option.bind_eq_some_iff.mpr ⟨y, ih.2 hy, h⟩⟩

theorem treeWalk_le {fuel fuel' : Nat} (hle : fuel ≤ fuel') {t : Tree} {p : PcbPtr}
    {r : List PcbPtr × Tree} (h : treeWalk fuel t p = some r) : treeWalk fuel' t p = some r := by
  induction hle with
  | refl => exact h
  | step _ ih => exact (treeWalk_mono _).1 ih

/-- What a termination of `p` gives up. -/
structure Tree.Killed (t t' : Tree) (live : Finset PcbPtr) (age : PcbPtr → Nat) (p : PcbPtr)
    (vs : List PcbPtr) : Prop where
  ok : t'.Ok (live \ vs.toFinset) age
  nodup : vs.Nodup
  self : p ∈ vs
  sub : ∀ v ∈ vs, v ∈ live ∧ (v = p ∨ t.Below v p)
  reached : ∀ v ∈ vs, v = p ∨ t.Reaches p v
  prnt : ∀ {x}, x ∉ vs → t'.pPrnt x = t.pPrnt x
  exact : t.Exact live → (∀ x, t.pChild x = some p → t.pNextSib p = none) →
    t'.Exact (live \ vs.toFinset)

/-- Enough for the walk over all PCBs. -/
abbrev walkFuel : Nat := 2 * maxProc + 2

theorem treeWalk_spec (h : t.Ok live age) (hlive : p ∈ live) (hp : PrevAgrees t p) :
    ∃ vs t', treeWalk walkFuel t p = some (vs, t') ∧ t.Killed t' live age p vs := by
  have hcut := outChild_cut h hp
  have hcard : (live.filter (age p < age ·)).card ≤ maxProc := by
    simpa using Finset.card_le_univ (live.filter (age p < age ·))
  obtain ⟨vs, t', hvs, hw⟩ := treeWalkChildren_spec maxProc _ live p _ hcard (h.cut hcut) le_rfl
  have hset : live \ (vs ++ [p]).toFinset = (live \ vs.toFinset).erase p := by
    ext x
    simp only [List.toFinset_append, List.toFinset_cons, List.toFinset_nil, Finset.mem_sdiff,
      Finset.mem_union, Finset.mem_erase, Finset.mem_insert, Finset.notMem_empty, or_false]
    tauto
  have hunlinked : ¬ t'.Linked p := fun hl => hcut.not_linked (hw.linked hl)
  have hnext : t'.pNextSib p = none := (hw.next hw.not_mem).trans hcut.next_self
  have hwalk : treeWalk (2 * maxProc + 1 + 1) t p = some (vs ++ [p], t') := by
    rw [treeWalk, hvs]
    rfl
  refine ⟨vs ++ [p], t', hwalk, ?_, ?_, by simp, ?_, ?_, ?_, ?_⟩
  · rw [hset]
    exact hw.ok.erase hunlinked hw.childless hnext
  · refine List.nodup_append.mpr ⟨hw.nodup, by simp, fun a ha b hb e => ?_⟩
    obtain rfl : b = p := by simpa using hb
    exact hw.not_mem (e ▸ ha)
  · intro v hv
    rcases List.mem_append.mp hv with hv | hv
    · obtain ⟨hlv, -, hb⟩ := hw.sub v hv
      exact ⟨hlv, .inr (hb.mono hcut.prnt_sub)⟩
    · obtain rfl : v = p := by simpa using hv
      exact ⟨hlive, .inl rfl⟩
  · intro v hv
    rcases List.mem_append.mp hv with hv | hv
    · exact .inr (hcut.shorter.reaches (hw.reached v hv))
    · exact .inl (by simpa using hv)
  · intro x hx
    have hx' : x ∉ vs ∧ x ≠ p := by simpa [not_or] using hx
    rw [hw.prnt hx'.1, hcut.prnt_keep hx'.2]
  · intro he hfirst
    rw [hset]
    refine (hw.exact (he.cut hcut fun {y} hy => ?_)).erase hw.ok hw.childless
    -- the next sibling moves up behind the previous one, there being one
    obtain ⟨q, hq⟩ := Option.ne_none_iff_exists'.mp (h.next_prnt hy).2
    rcases (he p hlive q hq).2 with ⟨x, hx⟩ | ⟨x, hx⟩
    · exact absurd ((hfirst x hx).symm.trans hy) nofun
    · exact .inr ⟨x, (hcut.relink (hp x hx)).trans hy⟩

/-- Under exact links it gives up all that is below `p`. -/
theorem Tree.Killed.mem_iff {t' : Tree} {vs : List PcbPtr} (h : t.Killed t' live age p vs)
    (he : t.Exact live) (he' : t'.Exact (live \ vs.toFinset)) {x : PcbPtr} :
    x ∈ vs ↔ x ∈ live ∧ (x = p ∨ t.Below x p) := by
  refine ⟨h.sub x, ?_⟩
  rintro ⟨hx, rfl | hb⟩
  · exact h.self
  · induction hb using Relation.TransGen.head_induction_on with
    | single hxp =>
        by_contra hvs
        have hmem : _ ∈ live \ vs.toFinset :=
          Finset.mem_sdiff.mpr ⟨hx, by simpa using hvs⟩
        have := (he' _ hmem _ ((h.prnt hvs).trans hxp)).1
        simp [h.self] at this
    | head hxy _ ih =>
        by_contra hvs
        have hmem : _ ∈ live \ vs.toFinset :=
          Finset.mem_sdiff.mpr ⟨hx, by simpa using hvs⟩
        have hy := ih (he _ hx _ hxy).1
        have := (he' _ hmem _ ((h.prnt hvs).trans hxy)).1
        simp [hy] at this

/-! ## New processes -/

namespace Tree

/-- `t'` is `t` with `tmp` added as the last child of `cur`. -/
structure Hook (t t' : Tree) (live : Finset PcbPtr) (cur tmp : PcbPtr) : Prop where
  prnt_self : t'.pPrnt tmp = some cur
  prnt_keep : ∀ {x}, x ≠ tmp → t'.pPrnt x = t.pPrnt x
  child : ∀ {x y}, t'.pChild x = some y → t.pChild x = some y ∨ x = cur ∧ y = tmp
  child_keep : ∀ {x y}, t.pChild x = some y → t'.pChild x = some y
  next : ∀ {x y}, t'.pNextSib x = some y →
    t.pNextSib x = some y ∨ x ∈ live ∧ t.pPrnt x = some cur ∧ y = tmp
  next_keep : ∀ {x y}, t.pNextSib x = some y → t'.pNextSib x = some y
  next_inj : ∀ {x x'}, t'.pNextSib x = some tmp → t'.pNextSib x' = some tmp → x = x'
  apart : ∀ {x x'}, t'.pChild x = some tmp → t'.pNextSib x' ≠ some tmp
  prev : ∀ {x y}, t'.pPrevSib y = some x → t.pPrevSib y = some x ∨ y = tmp ∧
    t'.pNextSib x = some tmp
  linked : t'.Linked tmp

/-- An age above all others. -/
def eldest (age : PcbPtr → Nat) : Nat := Finset.univ.sup age + 1

theorem lt_eldest (age : PcbPtr → Nat) (x : PcbPtr) : age x < eldest age :=
  Nat.lt_succ_of_le (Finset.le_sup (Finset.mem_univ x))

variable {t' : Tree} {cur tmp : PcbPtr}

theorem Ok.hook (h : t.Ok live age) (hk : Hook t t' live cur tmp) (hcur : cur ∈ live)
    (htmp : tmp ∉ live) :
    t'.Ok (insert tmp live) (Function.update age tmp (eldest age)) := by
  have hne : ∀ {x}, x ∈ live → x ≠ tmp := fun hx e => htmp (e ▸ hx)
  have hage : ∀ {x}, x ∈ live → Function.update age tmp (eldest age) x = age x := fun hx =>
    Function.update_of_ne (hne hx) _ _
  have hin : ∀ {x}, x ∈ live → x ∈ insert tmp live := fun hx => Finset.mem_insert_of_mem hx
  have hself : tmp ∈ insert tmp live := Finset.mem_insert_self _ _
  constructor
  case child_live =>
    intro x y hx
    rcases hk.child hx with hx | ⟨rfl, rfl⟩
    · exact ⟨hin (h.child_live hx).1, hin (h.child_live hx).2⟩
    · exact ⟨hin hcur, hself⟩
  case next_live =>
    intro x y hx
    rcases hk.next hx with hx | ⟨hx, -, rfl⟩
    · exact ⟨hin (h.next_live hx).1, hin (h.next_live hx).2⟩
    · exact ⟨hin hx, hself⟩
  case child_inj =>
    intro x x' y hx hx'
    rcases hk.child hx with h1 | ⟨rfl, rfl⟩
    · rcases hk.child hx' with h2 | ⟨-, rfl⟩
      · exact h.child_inj h1 h2
      · exact absurd (h.child_live h1).2 htmp
    · rcases hk.child hx' with h2 | ⟨rfl, -⟩
      · exact absurd (h.child_live h2).2 htmp
      · rfl
  case next_inj =>
    intro x x' y hx hx'
    rcases hk.next hx with h1 | ⟨-, -, rfl⟩
    · rcases hk.next hx' with h2 | ⟨-, -, rfl⟩
      · exact h.next_inj h1 h2
      · exact absurd (h.next_live h1).2 htmp
    · exact hk.next_inj hx hx'
  case apart =>
    intro x x' y hx hx'
    rcases hk.child hx with h1 | ⟨rfl, rfl⟩
    · rcases hk.next hx' with h2 | ⟨-, -, rfl⟩
      · exact h.apart h1 h2
      · exact absurd (h.child_live h1).2 htmp
    · exact hk.apart hx hx'
  case child_prnt =>
    intro x y hx
    rcases hk.child hx with h1 | ⟨rfl, rfl⟩
    · rw [hk.prnt_keep (hne (h.child_live h1).2)]
      exact h.child_prnt h1
    · exact hk.prnt_self
  case next_prnt =>
    intro x y hx
    rcases hk.next hx with h1 | ⟨hx, hprnt, rfl⟩
    · rw [hk.prnt_keep (hne (h.next_live h1).1), hk.prnt_keep (hne (h.next_live h1).2)]
      exact h.next_prnt h1
    · rw [hk.prnt_self, hk.prnt_keep (hne hx), hprnt]
      exact ⟨rfl, nofun⟩
  case prev_next =>
    intro x y hy
    rcases hk.prev hy with hy | ⟨rfl, hx⟩
    · exact hk.next_keep (h.prev_next hy)
    · exact hx
  case child_age =>
    intro x y hx
    rcases hk.child hx with h1 | ⟨rfl, rfl⟩
    · rw [hage (h.child_live h1).1, hage (h.child_live h1).2]
      exact h.child_age h1
    · rw [hage hcur, Function.update_self]
      exact lt_eldest age x
  case next_age =>
    intro x y hx
    rcases hk.next hx with h1 | ⟨hx, -, rfl⟩
    · rw [hage (h.next_live h1).1, hage (h.next_live h1).2]
      exact h.next_age h1
    · rw [hage hx, Function.update_self]
      exact lt_eldest age x

theorem Exact.hook (he : t.Exact live) (hk : Hook t t' live cur tmp) (hcur : cur ∈ live) :
    t'.Exact (insert tmp live) := by
  intro x hx y hxy
  by_cases hxt : x = tmp
  · subst hxt
    obtain rfl : cur = y := Option.some.inj (hk.prnt_self.symm.trans hxy)
    exact ⟨Finset.mem_insert_of_mem hcur, hk.linked⟩
  · obtain ⟨hy, hl⟩ := he x (Finset.mem_of_mem_insert_of_ne hx hxt) y ((hk.prnt_keep hxt) ▸ hxy)
    refine ⟨Finset.mem_insert_of_mem hy, ?_⟩
    rcases hl with ⟨w, hw⟩ | ⟨w, hw⟩
    · exact .inl ⟨w, hk.child_keep hw⟩
    · exact .inr ⟨w, hk.next_keep hw⟩

end Tree

/-- The search ends at a last sibling. -/
theorem lastSib_spec (h : t.Ok live age) : ∀ {fuel : Nat} {i z : PcbPtr}, i ∈ live →
    lastSib t fuel i = some z → z ∈ live ∧ t.pNextSib z = none ∧ t.pPrnt z = t.pPrnt i := by
  intro fuel
  induction fuel with
  | zero => exact fun _ hz => nomatch hz
  | succ fuel ih =>
      intro i z hi hz
      rw [lastSib] at hz
      cases hn : t.pNextSib i with
      | none =>
          simp only [hn] at hz
          obtain rfl := Option.some.inj hz
          exact ⟨hi, hn, rfl⟩
      | some nx =>
          simp only [hn] at hz
          obtain ⟨hlive, hnone, hprnt⟩ := ih (h.next_live hn).2 hz
          exact ⟨hlive, hnone, hprnt.trans (h.next_prnt hn).1⟩

theorem lastSib_congr {s : Tree} (hs : s.pNextSib = t.pNextSib) (fuel : Nat) (i : PcbPtr) :
    lastSib s fuel i = lastSib t fuel i := by
  induction fuel generalizing i with
  | zero => rfl
  | succ fuel ih => simp [lastSib, ih, hs]

/-- Fewer are younger than the next sibling. -/
theorem Tree.Ok.card_younger_lt (h : t.Ok live age) {i nx : PcbPtr} (hnx : t.pNextSib i = some nx) :
    (live.filter (age nx < age ·)).card < (live.filter (age i < age ·)).card := by
  refine Finset.card_lt_card ((Finset.ssubset_iff_of_subset ?_).mpr ⟨nx, ?_, ?_⟩)
  · intro x hx
    obtain ⟨hx, hlt⟩ := Finset.mem_filter.mp hx
    exact Finset.mem_filter.mpr ⟨hx, (h.next_age hnx).trans hlt⟩
  · exact Finset.mem_filter.mpr ⟨(h.next_live hnx).2, h.next_age hnx⟩
  · exact fun hx => (Finset.mem_filter.mp hx).2.false

/-- The search ends: siblings get younger. -/
theorem lastSib_total (h : t.Ok live age) (fuel : Nat) : ∀ i : PcbPtr,
    (live.filter (age i < age ·)).card < fuel → ∃ z, lastSib t fuel i = some z := by
  induction fuel with
  | zero => exact fun i hf => absurd hf (Nat.not_lt_zero _)
  | succ fuel ih =>
      intro i hf
      cases hnx : t.pNextSib i with
      | none => exact ⟨i, by simp [lastSib, hnx]⟩
      | some nx =>
          have hlt := h.card_younger_lt hnx
          obtain ⟨z, hz⟩ := ih nx (by omega)
          exact ⟨z, by simp [lastSib, hnx, hz]⟩

section

variable {cur tmp : PcbPtr}

/-- Nothing leads to a PCB that is not live, and it leads nowhere. -/
theorem Tree.Ok.dead (h : t.Ok live age) (htmp : tmp ∉ live) :
    t.pChild tmp = none ∧ t.pNextSib tmp = none ∧ t.pPrevSib tmp = none ∧ ¬ t.Linked tmp := by
  refine ⟨?_, ?_, ?_, ?_⟩
  · cases hc : t.pChild tmp with
    | none => rfl
    | some y => exact absurd (h.child_live hc).1 htmp
  · cases hn : t.pNextSib tmp with
    | none => rfl
    | some y => exact absurd (h.next_live hn).1 htmp
  · cases hv : t.pPrevSib tmp with
    | none => rfl
    | some y => exact absurd (h.next_live (h.prev_next hv)).2 htmp
  · rintro (⟨x, hx⟩ | ⟨x, hx⟩)
    · exact htmp (h.child_live hx).2
    · exact htmp (h.next_live hx).2

/-- Clearing a free PCB changes nothing but its parent. -/
theorem Tree.Ok.clear_eq (h : t.Ok live age) (htmp : tmp ∉ live) :
    ((t.clear tmp).setPrnt tmp (some cur)).setNextSib tmp none =
      { t with pPrnt := Function.update t.pPrnt tmp (some cur) } := by
  obtain ⟨hchild, hnext, hprev, -⟩ := h.dead htmp
  have h1 : Function.update t.pChild tmp none = t.pChild :=
    Function.update_eq_self_iff.mpr hchild.symm
  have h2 : Function.update t.pNextSib tmp none = t.pNextSib :=
    Function.update_eq_self_iff.mpr hnext.symm
  have h3 : Function.update t.pPrevSib tmp none = t.pPrevSib :=
    Function.update_eq_self_iff.mpr hprev.symm
  simp only [Tree.clear, Tree.setPrnt, Tree.setNextSib, Tree.setChild, Tree.setPrevSib,
    Function.update_idem, h1, h2, h3]

theorem insertChild_total (h : t.Ok live age) (cur : PcbPtr) (htmp : tmp ∉ live) :
    ∃ t', insertChild (t.clear tmp) cur tmp = some t' := by
  simp only [insertChild, h.clear_eq htmp]
  cases hc : t.pChild cur with
  | none => exact ⟨_, rfl⟩
  | some i =>
      have hcard : (live.filter (age i < age ·)).card < maxProc := by
        have hnot : i ∉ live.filter (age i < age ·) := fun hi =>
          (Finset.mem_filter.mp hi).2.false
        simpa using Finset.card_lt_univ_of_notMem hnot
      obtain ⟨z, hz⟩ := lastSib_total h _ _ hcard
      simp only [lastSib_congr (t := t) (s := { t with
        pPrnt := Function.update t.pPrnt tmp (some cur) }) rfl, hz]
      exact ⟨_, rfl⟩

theorem insertChild_hook (h : t.Ok live age) {t' : Tree} (hcur : cur ∈ live)
    (htmp : tmp ∉ live) (hins : insertChild (t.clear tmp) cur tmp = some t') :
    Hook t t' live cur tmp := by
  obtain ⟨-, -, hprev, hunlinked⟩ := h.dead htmp
  have hnot : ∀ x, t.pChild x ≠ some tmp ∧ t.pNextSib x ≠ some tmp := fun x =>
    ⟨fun e => hunlinked (.inl ⟨x, e⟩), fun e => hunlinked (.inr ⟨x, e⟩)⟩
  let s : Tree := { t with pPrnt := Function.update t.pPrnt tmp (some cur) }
  have hsprnt : ∀ {x}, x ≠ tmp → s.pPrnt x = t.pPrnt x := fun hx => Function.update_of_ne hx _ _
  simp only [insertChild, h.clear_eq htmp] at hins
  cases hc : t.pChild cur with
  | none =>
      have hv : s.pPrevSib tmp = none := hprev
      simp only [hc] at hins
      obtain rfl := Option.some.inj hins
      refine ⟨Function.update_self .., hsprnt, ?_, ?_, .inl, id, ?_, ?_, ?_, ?_⟩
      · intro x y hx
        by_cases hxc : x = cur
        · exact .inr ⟨hxc, by simpa [Tree.setPrevSib, Tree.setChild, hxc, eq_comm] using hx⟩
        · exact .inl (by simpa [Tree.setPrevSib, Tree.setChild, hxc, s] using hx)
      · intro x y hx
        have hxc : x ≠ cur := by
          rintro rfl
          exact absurd (hc.symm.trans hx) nofun
        simpa [Tree.setPrevSib, Tree.setChild, hxc, s] using hx
      · exact fun hx _ => absurd hx (hnot _).2
      · exact fun _ hx => absurd hx (hnot _).2
      · intro x y hy
        by_cases hyt : y = tmp
        · simp [Tree.setPrevSib, Tree.setChild, hyt] at hy
        · exact .inl (by simpa [Tree.setPrevSib, Tree.setChild, hyt, s] using hy)
      · exact .inl ⟨cur, by simp [Tree.setPrevSib, Tree.setChild]⟩
  | some i =>
      simp only [hc] at hins
      obtain ⟨z, hz, hins⟩ := Option.bind_eq_some_iff.mp hins
      obtain rfl := Option.some.inj hins
      have hsz : lastSib t maxProc i = some z := (lastSib_congr rfl _ _).symm.trans hz
      obtain ⟨hzlive, hznone, hzprnt⟩ := lastSib_spec h (h.child_live hc).2 hsz
      rw [h.child_prnt hc] at hzprnt
      have hzt : tmp ≠ z := fun e => htmp (e ▸ hzlive)
      have hself : ((s.setNextSib z (some tmp)).setPrevSib tmp (some z)).pNextSib z = some tmp := by
        simp [Tree.setPrevSib, Tree.setNextSib]
      have hother : ∀ {x}, x ≠ z →
          ((s.setNextSib z (some tmp)).setPrevSib tmp (some z)).pNextSib x = t.pNextSib x := by
        intro x hx
        simp [Tree.setPrevSib, Tree.setNextSib, hx, s]
      have honly : ∀ {x}, ((s.setNextSib z (some tmp)).setPrevSib tmp (some z)).pNextSib x =
          some tmp → x = z := by
        intro x hx
        by_contra hxz
        rw [hother hxz] at hx
        exact (hnot x).2 hx
      refine ⟨Function.update_self .., hsprnt, .inl, id, ?_, ?_, ?_, ?_, ?_, ?_⟩
      · intro x y hx
        by_cases hxz : x = z
        · subst hxz
          exact .inr ⟨hzlive, hzprnt, (Option.some.inj (hself.symm.trans hx)).symm⟩
        · exact .inl ((hother hxz) ▸ hx)
      · intro x y hx
        have hxz : x ≠ z := by
          rintro rfl
          exact absurd (hznone.symm.trans hx) nofun
        rw [hother hxz]
        exact hx
      · exact fun hx hx' => (honly hx).trans (honly hx').symm
      · exact fun hx => absurd hx (hnot _).1
      · intro x y hy
        by_cases hyt : y = tmp
        · subst hyt
          have : z = x := by simpa [Tree.setPrevSib] using hy
          exact .inr ⟨rfl, this ▸ hself⟩
        · exact .inl (by simpa [Tree.setPrevSib, Tree.setNextSib, hyt, s] using hy)
      · exact .inr ⟨z, hself⟩

end

end

end Pandos
