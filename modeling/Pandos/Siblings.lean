/-
# `Pandos.Siblings` — the lists of children

`children` reads the children of a PCB off the pointers.  A tree is
`WellFormed` if these lists are what they seem: each is null-terminated,
without repetition, and contains exactly the PCBs whose `p_prnt` says so,
`p_prev_sib` is the inverse of `p_next_sib`, and nobody is above himself.

    insertChild   appends to the list of the parent       (`WellFormed.insert`)
    removeChild   takes its first element                 (`WellFormed.remove`)
    outChild      takes out a last child                  (`WellFormed.out`)

Any other child breaks the lists when it is taken out: a first child with
siblings takes them along, and behind a child in the middle the back link is
missing (`outChild_removes_iff`).
-/
import Pandos.Forest
import Pandos.Lib.Simulation
import Pandos.Lib.Walk

namespace Pandos

open Intrusive Simulation

namespace Tree

/-- The children of a PCB, from the first to the last. -/
def children (t : Tree) (p : PcbPtr) : List PcbPtr :=
  walk t.pNextSib (fun _ => false) maxProc (t.pChild p)

structure WellFormed (t : Tree) : Prop where
  chain : ∀ q, Seg t.pNextSib (t.pChild q) (t.children q) none
  nodup : ∀ q, (t.children q).Nodup
  member : ∀ p q, p ∈ t.children q ↔ t.pPrnt p = some q
  inverse : ∀ p x, t.pPrevSib p = some x ↔ t.pNextSib x = some p
  orphan : ∀ p, t.pPrnt p = none → t.pNextSib p = none ∧ t.pPrevSib p = none
  acyclic : ∀ p, ¬ t.Below p p

/-- `p` is nobody's child and nobody's sibling. -/
def Detached (t : Tree) (p : PcbPtr) : Prop :=
  t.pPrnt p = none ∧ t.pNextSib p = none ∧ t.pPrevSib p = none

variable {t t' : Tree} {p q x y : PcbPtr} {kids : PcbPtr → List PcbPtr}

theorem children_eq {l : List PcbPtr} (h : Seg t.pNextSib (t.pChild p) l none) (hnd : l.Nodup) :
    t.children p = l := h.walk_eq (by simpa using List.Nodup.length_le_card hnd)

/-- Lists that fit the pointers are those of `children`. -/
theorem WellFormed.of_lists (chain : ∀ q, Seg t.pNextSib (t.pChild q) (kids q) none)
    (nodup : ∀ q, (kids q).Nodup) (member : ∀ p q, p ∈ kids q ↔ t.pPrnt p = some q)
    (inverse : ∀ p x, t.pPrevSib p = some x ↔ t.pNextSib x = some p)
    (orphan : ∀ p, t.pPrnt p = none → t.pNextSib p = none ∧ t.pPrevSib p = none)
    (acyclic : ∀ p, ¬ t.Below p p) : t.WellFormed ∧ t.children = kids := by
  have hkids : t.children = kids := funext fun q => children_eq (chain q) (nodup q)
  refine ⟨⟨?_, ?_, ?_, inverse, orphan, acyclic⟩, hkids⟩
  · rw [hkids]
    exact chain
  · rw [hkids]
    exact nodup
  · rw [hkids]
    exact member

namespace WellFormed

theorem child_mem (h : t.WellFormed) (hx : t.pChild q = some x) : x ∈ t.children q :=
  List.mem_of_head? ((h.chain q).head_eq.symm.trans hx)

theorem child_prnt (h : t.WellFormed) (hx : t.pChild q = some x) : t.pPrnt x = some q :=
  (h.member x q).mp (h.child_mem hx)

/-- What is next to a child is a child, and not the first one. -/
theorem next_mem (h : t.WellFormed) (hx : x ∈ t.children q) (hy : t.pNextSib x = some y) :
    ∃ l₁ l₂, t.children q = l₁ ++ x :: y :: l₂ := by
  obtain ⟨l₁, l₂, hl⟩ := List.append_of_mem hx
  have hs := h.chain q
  rw [hl] at hs
  have hhead := hs.next_of_mem.head_eq
  rw [hy] at hhead
  obtain ⟨l, rfl⟩ := List.head?_eq_some_iff.mp hhead.symm
  exact ⟨l₁, l, hl⟩

theorem next_prnt (h : t.WellFormed) (hy : t.pNextSib x = some y) :
    ∃ q, t.pPrnt x = some q ∧ t.pPrnt y = some q := by
  cases hq : t.pPrnt x with
  | none => exact absurd ((h.orphan x hq).1.symm.trans hy) nofun
  | some q =>
      obtain ⟨l₁, l₂, hl⟩ := h.next_mem ((h.member x q).mpr hq) hy
      exact ⟨q, rfl, (h.member y q).mp (by simp [hl])⟩

/-- A first child has nobody before it. -/
theorem prev_first (h : t.WellFormed) (hx : t.pChild q = some x) : t.pPrevSib x = none := by
  cases hw : t.pPrevSib x with
  | none => rfl
  | some w =>
      have hnext := (h.inverse x w).mp hw
      obtain ⟨r, hwr, hxr⟩ := h.next_prnt hnext
      obtain rfl : q = r := Option.some.inj ((h.child_prnt hx).symm.trans hxr)
      obtain ⟨l₁, l₂, hl⟩ := h.next_mem ((h.member w q).mpr hwr) hnext
      have hnd := h.nodup q
      have hhead := (h.chain q).head_eq
      rw [hl] at hnd hhead
      rw [hx] at hhead
      cases l₁ with
      | nil =>
          obtain rfl : x = w := Option.some.inj hhead
          simp at hnd
      | cons a l₁ =>
          obtain rfl : x = a := Option.some.inj hhead
          simp at hnd

theorem prev_ne (h : t.WellFormed) (p : PcbPtr) : t.pPrevSib p ≠ some p := by
  intro hp
  have hnext := (h.inverse p p).mp hp
  obtain ⟨q, hq, -⟩ := h.next_prnt hnext
  obtain ⟨l₁, l₂, hl⟩ := h.next_mem ((h.member p q).mpr hq) hnext
  have hnd := h.nodup q
  rw [hl] at hnd
  exact (List.nodup_cons.mp (List.nodup_append.mp hnd).2.1).1 (by simp)

theorem next_ne (h : t.WellFormed) (p : PcbPtr) : t.pNextSib p ≠ some p := fun e =>
  h.prev_ne p ((h.inverse p p).mpr e)

theorem next_inj (h : t.WellFormed) (hx : t.pNextSib x = some p) (hy : t.pNextSib y = some p) :
    x = y :=
  Option.some.inj (((h.inverse p x).mpr hx).symm.trans ((h.inverse p y).mpr hy))

theorem detached (h : t.WellFormed) (hp : ∀ q, p ∉ t.children q) : t.Detached p := by
  have hprnt : t.pPrnt p = none := by
    cases hq : t.pPrnt p with
    | none => rfl
    | some q => exact absurd ((h.member p q).mpr hq) (hp q)
  exact ⟨hprnt, h.orphan p hprnt⟩

end WellFormed

/-! ## Taking a child out -/

/-- `p` has left its list, which has closed up. -/
structure Unlinked (t t' : Tree) (p : PcbPtr) : Prop where
  prnt : t'.pPrnt = Function.update t.pPrnt p none
  child : t'.pChild = fun q => redirect t.pNextSib p (t.pChild q)
  next : t'.pNextSib = bypass t.pNextSib p
  prev : ∀ y, t'.pPrevSib y =
    if y = p then none else if t.pNextSib p = some y then none else t.pPrevSib y

theorem WellFormed.unlinked (h : t.WellFormed) (hu : Unlinked t t' p)
    (hp : t.pNextSib p = none ∨ t.pPrevSib p = none) :
    t'.WellFormed ∧ t'.children = fun q => (t.children q).erase p := by
  have hprnt : ∀ {x}, x ≠ p → t'.pPrnt x = t.pPrnt x := fun hx => by
    rw [hu.prnt, Function.update_of_ne hx]
  have hself : t'.pPrnt p = none := by rw [hu.prnt, Function.update_self]
  have hsub : ∀ {x y}, t'.pPrnt x = some y → t.pPrnt x = some y := fun {x y} hx => by
    have hxp : x ≠ p := by
      rintro rfl
      exact nomatch hself.symm.trans hx
    rwa [hprnt hxp] at hx
  -- as one of the neighbours of `p` is missing, no new pair of siblings arises
  have hnext : ∀ a b, t'.pNextSib a = some b ↔ a ≠ p ∧ b ≠ p ∧ t.pNextSib a = some b := by
    intro a b
    rw [hu.next, bypass_eq_some]
    constructor
    · rintro ⟨ha, ⟨hap, hpb⟩ | ⟨hap, hab⟩⟩
      · rcases hp with hp | hp
        · exact nomatch hp.symm.trans hpb
        · exact nomatch hp.symm.trans ((h.inverse p a).mpr hap)
      · exact ⟨ha, fun e => hap (e ▸ hab), hab⟩
    · rintro ⟨ha, hb, hab⟩
      exact ⟨ha, .inr ⟨fun e => hb (Option.some.inj (hab.symm.trans e)), hab⟩⟩
  refine WellFormed.of_lists ?_ (fun q => (h.nodup q).erase p) ?_ ?_ ?_ ?_
  · intro q
    rw [hu.next, hu.child]
    exact (h.chain q).bypass (h.nodup q) p
  · intro x q
    rw [(h.nodup q).mem_erase_iff, h.member]
    by_cases hx : x = p
    · rw [hx, hself]
      simp
    · rw [hprnt hx]
      simp [hx]
  · intro b a
    rw [hnext, hu.prev]
    constructor
    · intro hb
      obtain ⟨hbp, hb⟩ := Option.ite_none_left_eq_some.mp hb
      obtain ⟨hpb, hb⟩ := Option.ite_none_left_eq_some.mp hb
      have hab := (h.inverse b a).mp hb
      exact ⟨fun e => hpb (e ▸ hab), hbp, hab⟩
    · rintro ⟨ha, hb, hab⟩
      rw [if_neg hb, if_neg fun e => ha (h.next_inj hab e)]
      exact (h.inverse b a).mpr hab
  · intro x hx
    by_cases hxp : x = p
    · subst hxp
      rw [hu.next, hu.prev, if_pos rfl]
      exact ⟨bypass_self, rfl⟩
    · rw [hprnt hxp] at hx
      obtain ⟨hxn, hxv⟩ := h.orphan x hx
      constructor
      · rw [hu.next, bypass_of_ne hxp (by rw [hxn]; nofun), hxn]
      · rw [hu.prev, if_neg hxp, hxv, ite_self]
  · exact fun x hx => h.acyclic x (hx.mono hsub)

end Tree

open Pandos.Tree

section

variable {t : Tree} {p q c : PcbPtr}

/-- `unlinkChild` once the parent's pointer has been led past `p`. -/
theorem Tree.WellFormed.unlinkChild_spec (h : t.WellFormed) (p : PcbPtr) {v : Option PcbPtr}
    (hq : t.pPrnt p = some q) (hv : v = redirect t.pNextSib p (t.pChild q)) :
    Unlinked t (unlinkChild (t.setChild q v) p) p where
  prnt := by rw [unlinkChild_prnt]; rfl
  child := by
    rw [unlinkChild_child, hv]
    funext r
    by_cases hr : r = q
    · subst hr
      exact Function.update_self ..
    · refine (Function.update_of_ne hr ..).trans (redirect_of_ne fun e => hr ?_).symm
      exact Option.some.inj ((h.child_prnt e).symm.trans hq)
  next := by
    funext x
    rw [unlinkChild_next (t := t.setChild q v) (h.prev_ne p), bypass, redirect]
    by_cases hx : x = p
    · rw [if_pos hx, if_pos hx]
    · rw [if_neg hx, if_neg hx]
      exact if_congr (h.inverse p x) rfl rfl
  prev y := unlinkChild_prev (t := t.setChild q v) (h.prev_ne p) (h.next_ne p) y

/-- `removeChild` takes the first child. -/
theorem Tree.WellFormed.remove (h : t.WellFormed) (q : PcbPtr) :
    (removeChild t q).1 = (t.children q).head? ∧ (removeChild t q).2.WellFormed ∧
      (removeChild t q).2.children = Function.update t.children q (t.children q).tail := by
  have hhead := (h.chain q).head_eq
  cases hl : t.children q with
  | nil =>
      rw [hl] at hhead
      have hrem : removeChild t q = (none, t) := by simp [removeChild, hhead]
      rw [hrem]
      exact ⟨rfl, h, (Function.update_eq_self_iff.mpr hl.symm).symm⟩
  | cons c l =>
      rw [hl] at hhead
      have hc : t.pChild q = some c := hhead
      have hrem : removeChild t q =
          (some c, unlinkChild (t.setChild q (t.pNextSib c)) c) := by
        simp [removeChild, hc]
      have hu := h.unlinkChild_spec c (h.child_prnt hc) (v := t.pNextSib c) (by simp [redirect, hc])
      obtain ⟨hwf, hkids⟩ := h.unlinked hu (.inr (h.prev_first hc))
      rw [hrem]
      refine ⟨rfl, hwf, hkids.trans (funext fun r => ?_)⟩
      by_cases hr : r = q
      · subst hr
        rw [Function.update_self, hl, List.erase_cons_head, List.tail_cons]
      · rw [Function.update_of_ne hr, List.erase_of_not_mem fun hm => hr ?_]
        exact Option.some.inj (((h.member c r).mp hm).symm.trans (h.child_prnt hc))

/-! ## Adding a child -/

/-- The search goes to the end of the list. -/
theorem lastSib_eq {l : List PcbPtr} {i : PcbPtr} (hs : Seg t.pNextSib (some i) l none) :
    ∀ {fuel : Nat}, l.length ≤ fuel → lastSib t fuel i = l.getLast? := by
  induction l generalizing i with
  | nil => exact nomatch hs
  | cons a l ih =>
      intro fuel hf
      obtain ⟨e, hs⟩ := hs
      obtain rfl := Option.some.inj e
      cases fuel with
      | zero => simp at hf
      | succ fuel =>
          cases l with
          | nil =>
              have hn : t.pNextSib i = none := hs
              simp [lastSib, hn]
          | cons b l =>
              have hn : t.pNextSib i = some b := hs.1
              rw [lastSib, hn, List.getLast?_cons_cons]
              exact ih (hn ▸ hs) (by simpa using hf)

namespace Tree

variable {t' : Tree} {prnt x y : PcbPtr}

/-- One more way up, from a PCB that had none. -/
theorem Below.of_update (hp : t.pPrnt p = none)
    (hu : t'.pPrnt = Function.update t.pPrnt p (some prnt)) (h : t'.Below x y) :
    t.Below x y ∨ (x = p ∨ t.Below x p) ∧ (prnt = y ∨ t.Below prnt y) := by
  have hstep : ∀ {a b}, t'.pPrnt a = some b → a = p ∧ prnt = b ∨ t.pPrnt a = some b := by
    intro a b hab
    rw [hu] at hab
    by_cases ha : a = p
    · subst ha
      rw [Function.update_self] at hab
      exact .inl ⟨rfl, Option.some.inj hab⟩
    · rw [Function.update_of_ne ha] at hab
      exact .inr hab
  induction h with
  | single hxy =>
      rcases hstep hxy with ⟨hx, hy⟩ | hxy
      · exact .inr ⟨.inl hx, .inl hy⟩
      · exact .inl (.single hxy)
  | tail _ hyz ih =>
      rcases hstep hyz with ⟨rfl, hz⟩ | hyz
      · rcases ih with ih | ⟨hx, -⟩
        · exact .inr ⟨.inr ih, .inl hz⟩
        · exact .inr ⟨hx, .inl hz⟩
      · rcases ih with ih | ⟨hx, rfl | ih⟩
        · exact .inl (ih.tail hyz)
        · exact .inr ⟨hx, .inr (.single hyz)⟩
        · exact .inr ⟨hx, .inr (ih.tail hyz)⟩

/-- Nobody gets above himself as the child of somebody he is not above. -/
theorem WellFormed.acyclic_update (h : t.WellFormed) (hp : t.pPrnt p = none) (hne : p ≠ prnt)
    (hanc : ¬ t.Below prnt p) (hu : t'.pPrnt = Function.update t.pPrnt p (some prnt)) :
    ∀ x, ¬ t'.Below x x := by
  intro x hx
  rcases hx.of_update hp hu with hx | ⟨rfl | hxp, rfl | hx⟩
  · exact h.acyclic x hx
  · exact hne rfl
  · exact hanc hx
  · exact hanc hxp
  · exact hanc (Relation.TransGen.trans hx hxp)

/-- `p` stands behind the last child of `prnt`. -/
structure Appended (t t' : Tree) (prnt p : PcbPtr) : Prop where
  parent : t'.pPrnt = Function.update t.pPrnt p (some prnt)
  first : t.children prnt = [] → t'.pNextSib = t.pNextSib ∧ t'.pPrevSib = t.pPrevSib ∧
    t'.pChild = Function.update t.pChild prnt (some p)
  last : ∀ z, (t.children prnt).getLast? = some z → t'.pChild = t.pChild ∧
    t'.pNextSib = Function.update t.pNextSib z (some p) ∧
    t'.pPrevSib = Function.update t.pPrevSib p (some z)

theorem WellFormed.appended (h : t.WellFormed) (hp : t.pPrnt p = none) (hne : p ≠ prnt)
    (hanc : ¬ t.Below prnt p) (ha : Appended t t' prnt p) : t'.WellFormed ∧
      t'.children = Function.update t.children prnt (t.children prnt ++ [p]) := by
  have hout : ∀ q, p ∉ t.children q := fun q hq => nomatch hp.symm.trans ((h.member p q).mp hq)
  obtain ⟨hnext, hprev⟩ := h.orphan p hp
  have hprnt : ∀ {x}, x ≠ p → t'.pPrnt x = t.pPrnt x := fun hx => by
    rw [ha.parent, Function.update_of_ne hx]
  have hself : t'.pPrnt p = some prnt := by rw [ha.parent, Function.update_self]
  have hnodup : ∀ q, (Function.update t.children prnt (t.children prnt ++ [p]) q).Nodup := by
    intro q
    by_cases hq : q = prnt
    · subst hq
      rw [Function.update_self]
      exact List.concat_eq_append ▸ (h.nodup q).concat (hout q)
    · rw [Function.update_of_ne hq]
      exact h.nodup q
  have hmember : ∀ x q, x ∈ Function.update t.children prnt (t.children prnt ++ [p]) q ↔
      t'.pPrnt x = some q := by
    intro x q
    by_cases hx : x = p
    · subst hx
      rw [hself]
      by_cases hq : q = prnt
      · simp [hq]
      · rw [Function.update_of_ne hq]
        exact iff_of_false (hout q) fun e => hq (Option.some.inj e).symm
    · rw [hprnt hx, ← h.member]
      by_cases hq : q = prnt
      · simp [hq, hx]
      · rw [Function.update_of_ne hq]
  have hacyclic := h.acyclic_update hp hne hanc ha.parent
  rcases List.eq_nil_or_concat' (t.children prnt) with hnil | ⟨k, z, hk⟩
  case inl =>
    obtain ⟨hn, hv, hc⟩ := ha.first hnil
    refine WellFormed.of_lists (fun q => ?_) hnodup hmember ?_ ?_ hacyclic
    · rw [hn, hc]
      by_cases hq : q = prnt
      · subst hq
        rw [Function.update_self, Function.update_self, hnil]
        exact ⟨rfl, hnext⟩
      · rw [Function.update_of_ne hq, Function.update_of_ne hq]
        exact h.chain q
    · rw [hn, hv]
      exact h.inverse
    · intro x hx
      have hxp : x ≠ p := by
        rintro rfl
        exact nomatch hself.symm.trans hx
      rw [hn, hv]
      exact h.orphan x (hprnt hxp ▸ hx)
  case inr =>
    obtain ⟨hc, hn, hv⟩ := ha.last z (by simp [hk])
    have hz : t.pPrnt z = some prnt := (h.member z prnt).mp (by simp [hk])
    have hzp : z ≠ p := by
      rintro rfl
      exact nomatch hp.symm.trans hz
    have hzend : t.pNextSib z = none := (hk ▸ h.chain prnt).next_of_mem
    refine WellFormed.of_lists (fun q => ?_) hnodup hmember ?_ ?_ hacyclic
    · rw [hn, hc]
      by_cases hq : q = prnt
      · subst hq
        rw [Function.update_self, hk]
        exact (hk ▸ h.chain q).insert_last (hk ▸ h.nodup q) (hk ▸ hout q) hnext
      · rw [Function.update_of_ne hq]
        refine (h.chain q).update_of_not_mem fun hm => hq ?_
        exact Option.some.inj (((h.member z q).mp hm).symm.trans hz)
    · intro b a
      rw [hn, hv]
      by_cases hb : b = p
      · subst hb
        rw [Function.update_self]
        by_cases haz : a = z
        · simp [haz]
        · rw [Function.update_of_ne haz, ← h.inverse, hprev]
          exact iff_of_false (fun e => haz (Option.some.inj e).symm) nofun
      · rw [Function.update_of_ne hb]
        by_cases haz : a = z
        · subst haz
          rw [Function.update_self, h.inverse, hzend]
          exact iff_of_false nofun fun e => hb (Option.some.inj e).symm
        · rw [Function.update_of_ne haz]
          exact h.inverse b a
    · intro x hx
      have hxp : x ≠ p := by
        rintro rfl
        exact nomatch hself.symm.trans hx
      rw [hprnt hxp] at hx
      have hxz : x ≠ z := by
        rintro rfl
        exact nomatch hx.symm.trans hz
      rw [hn, hv, Function.update_of_ne hxz, Function.update_of_ne hxp]
      exact h.orphan x hx

end Tree

/-- `insertChild` appends a PCB that is in no list. -/
theorem Tree.WellFormed.insert (h : t.WellFormed) {prnt : PcbPtr} (hp : t.pPrnt p = none)
    (hne : p ≠ prnt) (hanc : ¬ t.Below prnt p) :
    ∃ t', insertChild t prnt p = some t' ∧ t'.WellFormed ∧
      t'.children = Function.update t.children prnt (t.children prnt ++ [p]) := by
  obtain ⟨hnext, hprev⟩ := h.orphan p hp
  have hn : (t.setPrnt p (some prnt)).setNextSib p none = t.setPrnt p (some prnt) := by
    have hself : Function.update t.pNextSib p none = t.pNextSib :=
      Function.update_eq_self_iff.mpr hnext.symm
    simp only [Tree.setNextSib, Tree.setPrnt, hself]
  have hins : ∃ t', insertChild t prnt p = some t' ∧ Appended t t' prnt p := by
    simp only [insertChild, hn]
    have hs := h.chain prnt
    have hlen : (t.children prnt).length ≤ maxProc := by
      simpa using List.Nodup.length_le_card (h.nodup prnt)
    cases hc : t.pChild prnt with
    | none =>
        have hchild : (t.setPrnt p (some prnt)).pChild prnt = none := hc
        rw [hchild]
        refine ⟨_, rfl, rfl, fun _ => ⟨rfl, ?_, rfl⟩, fun z hz => ?_⟩
        · exact Function.update_eq_self_iff.mpr hprev.symm
        · rw [hc] at hs
          rw [List.head?_eq_none_iff.mp hs.head_eq.symm] at hz
          cases hz
    | some i =>
        rw [hc] at hs
        have hlast := lastSib_eq (t := t.setPrnt p (some prnt)) hs hlen
        have hne : t.children prnt ≠ [] := by
          intro e
          rw [e] at hs
          cases hs
        obtain ⟨z, hz⟩ := Option.isSome_iff_exists.mp (List.getLast?_isSome.mpr hne)
        have hchild : (t.setPrnt p (some prnt)).pChild prnt = some i := hc
        rw [hz] at hlast
        refine ⟨_, by rw [hchild]; simp only [hlast]; rfl, rfl, fun e => absurd e hne, fun y hy => ?_⟩
        obtain rfl := Option.some.inj (hz.symm.trans hy)
        exact ⟨rfl, rfl, rfl⟩
  obtain ⟨t', ht', ha⟩ := hins
  exact ⟨t', ht', h.appended hp hne hanc ha⟩

end

/-! ## Sequences of insertions and removals -/

inductive ChildCall where
  | insert (prnt p : PcbPtr)
  | remove (p : PcbPtr)
deriving DecidableEq

namespace ChildCall

def exec (t : Tree) : ChildCall → Option (Option PcbPtr × Tree)
  | .insert prnt p => do
      let t ← insertChild t prnt p
      return (none, t)
  | .remove p => some (removeChild t p)

/-- The lists of children are queues. -/
def spec (kids : PcbPtr → List PcbPtr) : ChildCall → Option PcbPtr × (PcbPtr → List PcbPtr)
  | .insert prnt p => (none, Function.update kids prnt (kids prnt ++ [p]))
  | .remove p => ((kids p).head?, Function.update kids p (kids p).tail)

/-- A PCB without a parent may become a child of any that is not below it. -/
def Pre (kids : PcbPtr → List PcbPtr) : ChildCall → Prop
  | .insert prnt p =>
      (∀ q, p ∉ kids q) ∧ ¬ Relation.ReflTransGen (fun a b => a ∈ kids b) prnt p
  | .remove _ => True

/-- A PCB without children, in particular. -/
def Fresh (kids : PcbPtr → List PcbPtr) : ChildCall → Prop
  | .insert prnt p => (∀ q, p ∉ kids q) ∧ kids p = [] ∧ p ≠ prnt
  | .remove _ => True

instance (kids : PcbPtr → List PcbPtr) : ∀ c, Decidable (Fresh kids c)
  | .insert _ _ => inferInstanceAs (Decidable (_ ∧ _))
  | .remove _ => inferInstanceAs (Decidable True)

theorem Fresh.pre {kids : PcbPtr → List PcbPtr} {c : ChildCall} (h : Fresh kids c) :
    Pre kids c := by
  cases c with
  | remove p => exact trivial
  | insert prnt p =>
      obtain ⟨hp, hkids, hne⟩ := h
      refine ⟨hp, fun hanc => ?_⟩
      rcases hanc.cases_tail with e | ⟨x, -, hx⟩
      · exact hne e
      · rw [hkids] at hx
        exact absurd hx List.not_mem_nil

theorem Fresh.allowed {kids : PcbPtr → List PcbPtr} {cs : List ChildCall}
    (h : Allowed Fresh spec kids cs) : Allowed Pre spec kids cs := h.mono fun _ _ h => h.pre

theorem exec_spec {t : Tree} (h : t.WellFormed) (c : ChildCall) (hc : Pre t.children c) :
    ∃ t', exec t c = some ((spec t.children c).1, t') ∧ t'.WellFormed ∧
      t'.children = (spec t.children c).2 := by
  cases c with
  | remove p =>
      obtain ⟨hr, hwf, hkids⟩ := h.remove p
      exact ⟨(removeChild t p).2, by rw [exec, spec, ← hr], hwf, hkids⟩
  | insert prnt p =>
      obtain ⟨hp, hanc⟩ := hc
      have hbelow : ¬ t.Below prnt p := fun hb => hanc <| by
        refine Relation.ReflTransGen.mono (fun a b hab => ?_) _ _ hb.to_reflTransGen
        exact (h.member a b).mpr hab
      have hne : p ≠ prnt := by
        rintro rfl
        exact hanc .refl
      obtain ⟨t', ht', hwf, hkids⟩ := h.insert (h.detached hp).1 hne hbelow
      exact ⟨t', by simp [exec, spec, ht'], hwf, hkids⟩

theorem refine {t : Tree} (h : t.WellFormed) (cs : List ChildCall)
    (hcs : Allowed Pre spec t.children cs) :
    ∃ t', calls exec t cs = some ((specs spec t.children cs).1, t') ∧ t'.WellFormed ∧
      t'.children = (specs spec t.children cs).2 := by
  refine calls_refine (R := fun (t : Tree) kids => t.WellFormed ∧ t.children = kids) ?_ cs
    ⟨h, rfl⟩ hcs
  rintro s a c ⟨hwf, rfl⟩ hc
  exact exec_spec hwf c hc

end ChildCall

theorem Tree.wellFormed_empty : Tree.empty.WellFormed ∧ Tree.empty.children = fun _ => [] :=
  WellFormed.of_lists (fun _ => rfl) (fun _ => .nil) (fun _ _ => iff_of_false List.not_mem_nil nofun)
    (fun _ _ => iff_of_false nofun nofun) (fun _ _ => ⟨rfl, rfl⟩) fun p h => by
      cases h with
      | single h => exact nomatch h
      | tail _ h => exact nomatch h

/-- A parent with three children. -/
def family : List ChildCall := [.insert 0 1, .insert 0 2, .insert 0 3]

theorem family_exec : ∃ rs t, calls ChildCall.exec .empty family = some (rs, t) ∧ t.WellFormed ∧
    t.children 0 = [1, 2, 3] := by
  obtain ⟨hwf, hkids⟩ := Tree.wellFormed_empty
  have hpre : Allowed ChildCall.Fresh ChildCall.spec (fun _ => []) family := by decide +kernel
  obtain ⟨t, ht, hwf', hkids'⟩ :=
    ChildCall.refine hwf family (hkids ▸ ChildCall.Fresh.allowed hpre)
  exact ⟨_, t, ht, hwf', by rw [hkids', hkids]; decide⟩

/-- Whatever the interleaving, each list of children is a queue, and who is in
none of them is detached. -/
theorem children_refine_queues {t : Tree} (h : t.WellFormed) {cs : List ChildCall}
    (hcs : Allowed ChildCall.Pre ChildCall.spec t.children cs) :
    ∃ t', calls ChildCall.exec t cs = some ((specs ChildCall.spec t.children cs).1, t') ∧
      t'.WellFormed ∧ t'.children = (specs ChildCall.spec t.children cs).2 ∧
        ∀ p, (∀ q, p ∉ t'.children q) → t'.Detached p := by
  obtain ⟨t', ht', hwf, hkids⟩ := ChildCall.refine h cs hcs
  exact ⟨t', ht', hwf, hkids, fun p => hwf.detached⟩

/-- Two parents, and a child that comes back. -/
def families : List ChildCall :=
  family ++ [.insert 4 5, .remove 0, .insert 0 1, .remove 0, .remove 4, .remove 4]

theorem children_refine_queues_families : ∃ t', calls ChildCall.exec .empty families =
      some ([none, none, none, none, some 1, none, some 2, some 5, none], t') ∧
    t'.children 0 = [3, 1] ∧ t'.Detached 2 := by
  obtain ⟨hwf, hkids⟩ := Tree.wellFormed_empty
  have hpre : Allowed ChildCall.Fresh ChildCall.spec (fun _ => []) families := by decide +kernel
  obtain ⟨t', ht', -, hkids', hdet⟩ :=
    children_refine_queues hwf (hkids ▸ ChildCall.Fresh.allowed hpre)
  rw [hkids] at ht' hkids'
  refine ⟨t', ht'.trans ?_, ?_, hdet 2 ?_⟩
  · rw [show (specs ChildCall.spec (fun _ => []) families).1 =
      [none, none, none, none, some 1, none, some 2, some 5, none] by decide +kernel]
  · rw [hkids']
    decide +kernel
  · rw [hkids']
    decide +kernel

/-! ## `outChild` -/

section

variable {t : Tree} {p q : PcbPtr}

/-- What `outChild` does, with the pointer it returns. -/
def outChildPtr (t : Tree) (p : PcbPtr) : Option PcbPtr × Tree :=
  (if t.pPrnt p = none then none else some p, outChild t p)

/-- What it should do: `p` leaves its list, and nothing else happens. -/
structure RemovesChild (t : Tree) (p : PcbPtr) (r : Option PcbPtr × Tree) : Prop where
  orphan : t.pPrnt p = none → r = (none, t)
  returns : t.pPrnt p ≠ none → r.1 = some p ∧ r.2.Detached p
  children : ∀ q, r.2.children q = (t.children q).erase p
  wellFormed : r.2.WellFormed

/-- The pointer of the parent is right if `p` is a last child. -/
theorem Tree.WellFormed.out (h : t.WellFormed) (hq : t.pPrnt p = some q)
    (hlast : t.pNextSib p = none) : (outChild t p).WellFormed ∧
      (outChild t p).children = fun q => (t.children q).erase p := by
  have hout : outChild t p =
      unlinkChild (t.setChild q (redirect t.pNextSib p (t.pChild q))) p := by
    simp only [outChild, hq]
    by_cases hc : t.pChild q = some p
    · rw [if_pos hc, redirect, if_pos hc, h.prev_first hc, hlast]
    · have hself : Function.update t.pChild q (t.pChild q) = t.pChild := Function.update_eq_self ..
      rw [if_neg hc, redirect_of_ne hc, Tree.setChild, hself]
  rw [hout]
  exact h.unlinked (h.unlinkChild_spec p hq rfl) (.inl hlast)

/-- With a first child its siblings are lost. -/
theorem outChild_first (h : t.WellFormed) (hc : t.pChild q = some p) :
    (outChild t p).children q = [] := by
  have hout : outChild t p = unlinkChild (t.setChild q none) p := by
    simp [outChild, h.child_prnt hc, hc, h.prev_first hc]
  have hnone : (outChild t p).pChild q = none := by
    rw [hout, unlinkChild_child]
    exact Function.update_self ..
  rw [Tree.children, hnone]
  rfl

/-- Between `a` and `y`, the forward link closes up and the back link is lost. -/
theorem outChild_middle (h : t.WellFormed) {a y : PcbPtr} (ha : t.pNextSib a = some p)
    (hy : t.pNextSib p = some y) :
    (outChild t p).pNextSib a = some y ∧ (outChild t p).pPrevSib y = none := by
  obtain ⟨q, haq, hq⟩ := h.next_prnt ha
  have hap : t.pPrevSib p = some a := (h.inverse p a).mpr ha
  have hc : t.pChild q ≠ some p := fun e => nomatch (h.prev_first e).symm.trans hap
  have hout : outChild t p = unlinkChild t p := by simp [outChild, hq, hc]
  have hne : a ≠ p := fun e => h.next_ne p (e ▸ ha)
  have hye : y ≠ p := fun e => h.next_ne p (e ▸ hy)
  constructor
  · rw [hout, unlinkChild_next (h.prev_ne p), if_neg hne, if_pos hap, hy]
  · rw [hout, unlinkChild_prev (h.prev_ne p) (h.next_ne p), if_neg hye, if_pos hy]

theorem Tree.WellFormed.first_or_next (h : t.WellFormed) (hq : t.pPrnt p = some q) :
    t.pChild q = some p ∨ ∃ a, t.pNextSib a = some p := by
  obtain ⟨l₁, l₂, hl⟩ := List.append_of_mem ((h.member p q).mpr hq)
  have hs := h.chain q
  rcases List.eq_nil_or_concat' l₁ with rfl | ⟨k, a, rfl⟩
  · rw [hl] at hs
    exact .inl hs.1
  · rw [hl, List.append_assoc] at hs
    exact .inr ⟨a, hs.next_of_mem.1⟩

/-- `outChild` takes out a last child, and no other. -/
theorem outChild_removes_iff (h : t.WellFormed) (p : PcbPtr) :
    RemovesChild t p (outChildPtr t p) ↔ t.pPrnt p = none ∨ t.pNextSib p = none := by
  cases hq : t.pPrnt p with
  | none =>
      have hout : outChild t p = t := by simp [outChild, hq]
      refine iff_of_true ?_ (.inl rfl)
      simp only [outChildPtr, hq, hout, if_true]
      refine ⟨fun _ => rfl, fun e => absurd hq e, fun q => ?_, h⟩
      exact (List.erase_of_not_mem fun hm =>
        Option.some_ne_none q (((h.member p q).mp hm).symm.trans hq)).symm
  | some q =>
      constructor
      · intro hr
        right
        by_contra hlast
        obtain ⟨y, hy⟩ := Option.ne_none_iff_exists'.mp hlast
        rcases h.first_or_next hq with hc | ⟨a, ha⟩
        · have hkids := (hr.children q).symm.trans (outChild_first h hc)
          obtain ⟨l₁, l₂, hl⟩ := h.next_mem ((h.member p q).mpr hq) hy
          have hne : y ≠ p := fun e => h.next_ne p (e ▸ hy)
          have hmem : y ∈ (t.children q).erase p :=
            (List.mem_erase_of_ne hne).mpr (by simp [hl])
          rw [hkids] at hmem
          exact absurd hmem List.not_mem_nil
        · obtain ⟨hnext, hprev⟩ := outChild_middle h ha hy
          have hback : (outChild t p).pPrevSib y = some a := (hr.wellFormed.inverse y a).mpr hnext
          cases hprev.symm.trans hback
      · rintro (hp | hlast)
        · cases hp
        · obtain ⟨hwf, hkids⟩ := h.out hq hlast
          have hptr : outChildPtr t p = (some p, outChild t p) := by simp [outChildPtr, hq]
          rw [hptr]
          refine ⟨fun e => absurd (hq.symm.trans e) (Option.some_ne_none q), fun _ => ⟨rfl, hwf.detached fun r hr => ?_⟩,
            fun r => congrFun hkids r, hwf⟩
          rw [hkids] at hr
          exact (h.nodup r).not_mem_erase hr

end

theorem outChild_removes_iff_family : ∃ rs t, calls ChildCall.exec .empty family = some (rs, t) ∧
    RemovesChild t 3 (outChildPtr t 3) := by
  obtain ⟨rs, t, ht, hwf, hkids⟩ := family_exec
  have hs := hkids ▸ hwf.chain 0
  exact ⟨rs, t, ht, (outChild_removes_iff hwf 3).mpr (.inr hs.2.2.2)⟩

/-- Without the first child the list of the parent is empty, and without the
second the third does not lead back to the first. -/
theorem outChild_breaks_family : ∃ rs t, calls ChildCall.exec .empty family = some (rs, t) ∧
    t.WellFormed ∧ t.children 0 = [1, 2, 3] ∧
    ((outChild t 1).children 0 = [] ∧ ¬ RemovesChild t 1 (outChildPtr t 1)) ∧
      (outChild t 2).pNextSib 1 = some 3 ∧ (outChild t 2).pPrevSib 3 = none ∧
        ¬ RemovesChild t 2 (outChildPtr t 2) := by
  obtain ⟨rs, t, ht, hwf, hkids⟩ := family_exec
  obtain ⟨h1, h2, h3, -⟩ := hkids ▸ hwf.chain 0
  have hnil := outChild_first hwf h1
  obtain ⟨hnext, hprev⟩ := outChild_middle hwf h2 h3
  refine ⟨rs, t, ht, hwf, hkids, ⟨hnil, fun hr => ?_⟩, hnext, hprev, fun hr => ?_⟩
  · have hc := (hr.children 0).symm.trans hnil
    rw [hkids] at hc
    exact absurd hc (by decide)
  · exact nomatch hprev.symm.trans ((hr.wellFormed.inverse 3 1).mpr hnext)

end Pandos
