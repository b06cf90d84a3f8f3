/-
# `Pandos.Lib.Ring` — circular doubly linked lists threaded through a table

An intrusive list keeps its links in the elements: two partial functions
`next` and `prev` on the type `α` of elements.  One pair of functions holds
many disjoint lists at once, so every statement below names the list of
elements it is about and says nothing of the others.

    IsCycle L l      the elements of `l`, in this order, form one cycle of `L`
    IsRing L t l     … and `t` is the tail pointer (`none` for the empty list)

The two pointer operations are `Links.unlink` (bridge over an element and
clear it) and `Links.splice` (insert an element between the tail and the
head).  Each is described by what it does to the *list*; a list that does not
meet the elements written is carried across by `IsCycle.congr`.

The third notion, `IsQueue`, is the same list reached from its *head*, with
just enough of the backward links for removing the head and adding behind
the tail.  It survives what a cycle does not: an element inserted a second
time (`IsQueue.splice_front`), which cuts off everything behind the element's
first occurrence.
-/
import Mathlib.Data.List.Chain
import Mathlib.Data.List.Nodup
import Mathlib.Logic.Function.Basic

namespace Intrusive

/-- The two link fields of every element. -/
structure Links (α : Type) where
  next : α → Option α
  prev : α → Option α

variable {α : Type}

namespace Links

/-- `b` follows `a`, in both directions. -/
def Joins (L : Links α) (a b : α) : Prop := L.next a = some b ∧ L.prev b = some a

instance [DecidableEq α] (L : Links α) : DecidableRel L.Joins := fun _ _ =>
  inferInstanceAs (Decidable (_ ∧ _))

/-- Two link tables that agree on the elements of `l`. -/
def AgreeOn (L L' : Links α) (l : List α) : Prop :=
  ∀ x ∈ l, L'.next x = L.next x ∧ L'.prev x = L.prev x

end Links

open Links

/-! ## Chains -/

/-- In a chain only the elements before the last are left behind, and only
those after the first are reached. -/
theorem isChain_imp_inner {R S : α → α → Prop} : ∀ {l : List α}, l.IsChain R →
    (∀ x ∈ l.dropLast, ∀ y ∈ l.tail, R x y → S x y) → l.IsChain S
  | [], _, _ => .nil
  | [_], _, _ => .singleton _
  | a :: b :: l, h, H => by
      obtain ⟨hab, hl⟩ := List.isChain_cons_cons.mp h
      refine List.isChain_cons_cons.mpr ⟨H a (by simp) b (by simp) hab, ?_⟩
      exact isChain_imp_inner hl fun x hx y hy =>
        H x (by simpa using Or.inr hx) y (List.mem_cons_of_mem _ hy)

/-! ## Cycles -/

/-- The elements of `l` form one cycle: from the last element round to the
first, and from each to the next. -/
structure IsCycle (L : Links α) (l : List α) : Prop where
  nodup : l.Nodup
  chain : ∀ t ∈ l.getLast?, (t :: l).IsChain L.Joins

instance [DecidableEq α] (L : Links α) (l : List α) : Decidable (IsCycle L l) :=
  decidable_of_iff (l.Nodup ∧ ∀ t ∈ l.getLast?, (t :: l).IsChain L.Joins)
    ⟨fun h => ⟨h.1, h.2⟩, fun h => ⟨h.nodup, h.chain⟩⟩

theorem IsCycle.nil (L : Links α) : IsCycle L [] :=
  ⟨List.nodup_nil, fun _ h => by simp at h⟩

theorem isCycle_concat {L : Links α} {l : List α} {t : α} :
    IsCycle L (l ++ [t]) ↔ (l ++ [t]).Nodup ∧ (t :: (l ++ [t])).IsChain L.Joins :=
  ⟨fun h => ⟨h.nodup, h.chain t (by simp)⟩,
   fun h => ⟨h.1, fun u hu => by simp at hu; exact hu ▸ h.2⟩⟩

/-- A cycle does not notice writes to other elements. -/
theorem IsCycle.congr {L L' : Links α} {l : List α} (h : IsCycle L l) (ha : L.AgreeOn L' l) :
    IsCycle L' l := by
  refine ⟨h.nodup, fun t ht => ?_⟩
  have htl : t ∈ l := List.mem_of_getLast? ht
  refine List.IsChain.imp_of_mem_tail_imp ?_ (h.chain t ht)
  intro a b hal hbl ⟨hn, hp⟩
  have ha' : a ∈ l := by
    rcases List.mem_cons.mp hal with rfl | ha'
    · exact htl
    · exact ha'
  exact ⟨(ha a ha').1.trans hn, (ha b (by simpa using hbl)).2.trans hp⟩

/-- Where a cycle is cut open does not matter. -/
theorem IsCycle.rotate {L : Links α} {l₁ l₂ : List α} (h : IsCycle L (l₁ ++ l₂)) :
    IsCycle L (l₂ ++ l₁) := by
  rcases List.eq_nil_or_concat' l₁ with rfl | ⟨k₁, a, rfl⟩
  · simpa using h
  rcases List.eq_nil_or_concat' l₂ with rfl | ⟨k₂, b, rfl⟩
  · simpa using h
  have hn : (k₂ ++ [b] ++ (k₁ ++ [a])).Nodup :=
    (List.perm_append_comm.nodup_iff).mp (by simpa using h.nodup)
  have hc := h.chain b (by simp [List.getLast?_cons])
  refine ⟨by simpa using hn, fun t ht => ?_⟩
  obtain rfl : a = t := by simpa [List.getLast?_cons] using ht
  -- the chain of `b :: k₁ a k₂ b` falls apart at `a`, and both halves swap
  have h1 : (b :: (k₁ ++ [a])).IsChain L.Joins := by
    have : b :: ((k₁ ++ [a]) ++ (k₂ ++ [b])) = (b :: (k₁ ++ [a])) ++ (k₂ ++ [b]) := by simp
    rw [this] at hc
    exact hc.left_of_append
  have h2 : (a :: (k₂ ++ [b])).IsChain L.Joins := by
    have : b :: ((k₁ ++ [a]) ++ (k₂ ++ [b])) = (b :: k₁) ++ (a :: (k₂ ++ [b])) := by simp
    rw [this] at hc
    exact hc.right_of_append
  have : a :: ((k₂ ++ [b]) ++ (k₁ ++ [a])) = (a :: k₂) ++ b :: (k₁ ++ [a]) := by simp
  rw [this]
  exact List.isChain_split.mpr ⟨by simpa using h2, h1⟩

/-- The links of the first element. -/
theorem IsCycle.head_links {L : Links α} {x : α} {l : List α} (h : IsCycle L (x :: l)) :
    L.prev x = (x :: l).getLast? ∧ L.next x = (l ++ [x]).head? := by
  rcases List.eq_nil_or_concat' l with rfl | ⟨k, t, rfl⟩
  · have := (h.chain x (by simp)).rel_head? (y := x) (by simp)
    exact ⟨by simpa using this.2, by simpa using this.1⟩
  · have hc := h.chain t (by simp [List.getLast?_cons])
    have h1 : L.Joins t x := hc.rel_head? (by simp)
    refine ⟨by simpa [List.getLast?_cons] using h1.2, ?_⟩
    cases k with
    | nil =>
        have h2 : L.Joins x t := by simpa using hc.tail
        simpa using h2.1
    | cons y k =>
        have h2 : L.Joins x y := hc.tail.rel_head? (by simp)
        simpa using h2.1

theorem IsCycle.links_isSome {L : Links α} {x : α} {l : List α} (h : IsCycle L l) (hx : x ∈ l) :
    ∃ a ∈ l, ∃ b ∈ l, L.prev x = some a ∧ L.next x = some b := by
  obtain ⟨l₁, l₂, rfl⟩ := List.append_of_mem hx
  have hr : IsCycle L (x :: (l₂ ++ l₁)) := by simpa using h.rotate
  obtain ⟨hp, hn⟩ := hr.head_links
  obtain ⟨a, ha⟩ : ∃ a, (x :: (l₂ ++ l₁)).getLast? = some a :=
    Option.isSome_iff_exists.mp (by simp)
  obtain ⟨b, hb⟩ : ∃ b, ((l₂ ++ l₁) ++ [x]).head? = some b :=
    Option.isSome_iff_exists.mp (by simp)
  have ham := List.mem_of_getLast? ha
  have hbm := List.mem_of_head? hb
  refine ⟨a, ?_, b, ?_, hp.trans ha, hn.trans hb⟩ <;> simp at * <;> tauto

/-! ## Rings reached from the tail -/

/-- The ring `l`, reached from the tail pointer `t`. -/
structure IsRing (L : Links α) (t : Option α) (l : List α) : Prop where
  cycle : IsCycle L l
  tail_eq : t = l.getLast?

namespace IsRing

variable {L L' : Links α} {t : Option α} {l : List α}

theorem nil (L : Links α) : IsRing L none [] := ⟨.nil L, rfl⟩

theorem nodup (h : IsRing L t l) : l.Nodup := h.cycle.nodup

theorem congr (h : IsRing L t l) (ha : L.AgreeOn L' l) : IsRing L' t l :=
  ⟨h.cycle.congr ha, h.tail_eq⟩

theorem eq_nil_iff (h : IsRing L t l) : t = none ↔ l = [] := by
  rw [h.tail_eq, List.getLast?_eq_none_iff]

/-- The tail is the last element, and the head follows it. -/
theorem of_some {a : α} (h : IsRing L (some a) l) :
    ∃ k, l = k ++ [a] ∧ L.next a = l.head? := by
  obtain ⟨k, rfl⟩ := List.getLast?_eq_some_iff.mp h.tail_eq.symm
  have hr : IsCycle L (a :: k) := by simpa using h.cycle.rotate
  exact ⟨k, rfl, by simpa using hr.head_links.2⟩

/-- An element alone in its ring is its own neighbour. -/
theorem single {x : α} (hn : L.next x = some x) (hp : L.prev x = some x) :
    IsRing L (some x) [x] :=
  ⟨⟨by simp, fun u hu => by
    obtain rfl : x = u := by simpa using hu
    exact List.isChain_pair.mpr ⟨hn, hp⟩⟩, rfl⟩

end IsRing

/-! ## Queues reached from the head -/

/-- `l` is reached from the head pointer `h` along `next`, the head knows the
last element, and the last element leads back to the head or stays put. -/
structure IsQueue (L : Links α) (h : Option α) (l : List α) : Prop where
  nodup : l.Nodup
  head_eq : h = l.head?
  path : l.IsChain (fun a b => L.next a = some b)
  back : ∀ a ∈ l.head?, L.prev a = l.getLast?
  wrap : ∀ z ∈ l.getLast?, L.next z = l.head? ∨ L.next z = some z

namespace IsQueue

variable {L L' : Links α} {h : Option α} {l : List α}

theorem nil (L : Links α) : IsQueue L none [] := by
  constructor <;> simp

theorem of_cycle (hc : IsCycle L l) : IsQueue L l.head? l := by
  refine ⟨hc.nodup, rfl, ?_, ?_, ?_⟩
  · rcases List.eq_nil_or_concat' l with rfl | ⟨k, t, rfl⟩
    · exact .nil
    · exact (hc.chain t (by simp)).tail.imp fun _ _ h => h.1
  · intro a ha
    obtain ⟨k, rfl⟩ := List.head?_eq_some_iff.mp ha
    exact hc.head_links.1
  · intro z hz
    obtain ⟨k, rfl⟩ := List.getLast?_eq_some_iff.mp hz
    have hr : IsCycle L (z :: k) := by simpa using hc.rotate
    exact .inl (by simpa using hr.head_links.2)

theorem congr (hq : IsQueue L h l) (ha : L.AgreeOn L' l) : IsQueue L' h l := by
  refine ⟨hq.nodup, hq.head_eq, ?_, ?_, ?_⟩
  · refine List.IsChain.imp_of_mem_imp ?_ hq.path
    exact fun a b hal _ hab => (ha a hal).1.trans hab
  · exact fun a hal => (ha a (List.mem_of_head? hal)).2.trans (hq.back a hal)
  · intro z hz
    rw [(ha z (List.mem_of_getLast? hz)).1]
    exact hq.wrap z hz

theorem single {x : α} (hn : L.next x = some x) (hp : L.prev x = some x) :
    IsQueue L (some x) [x] :=
  of_cycle (IsRing.single hn hp).cycle

/-- What the head's links say. -/
theorem head_links {x : α} (hq : IsQueue L h (x :: l)) :
    L.prev x = (x :: l).getLast? ∧ L.next x = (l ++ [x]).head? := by
  refine ⟨hq.back x (by simp), ?_⟩
  cases l with
  | nil => simpa using hq.wrap x (by simp)
  | cons y l => simpa using (List.isChain_cons_cons.mp hq.path).1

end IsQueue

/-! ## The writes -/

variable [DecidableEq α]

namespace Links

def setNext (L : Links α) (x : α) (v : Option α) : Links α :=
  { L with next := Function.update L.next x v }

def setPrev (L : Links α) (x : α) (v : Option α) : Links α :=
  { L with prev := Function.update L.prev x v }

@[simp] theorem setNext_next (L : Links α) (x y : α) (v : Option α) :
    (L.setNext x v).next y = if y = x then v else L.next y := by
  simp [setNext, Function.update_apply]

@[simp] theorem setNext_prev (L : Links α) (x : α) (v : Option α) :
    (L.setNext x v).prev = L.prev := rfl

@[simp] theorem setPrev_prev (L : Links α) (x y : α) (v : Option α) :
    (L.setPrev x v).prev y = if y = x then v else L.prev y := by
  simp [setPrev, Function.update_apply]

@[simp] theorem setPrev_next (L : Links α) (x : α) (v : Option α) :
    (L.setPrev x v).next = L.next := rfl

/-- Join `a` and `b` over `x`, and clear `x`. -/
def unlink (L : Links α) (a x b : α) : Links α :=
  (((L.setNext a (some b)).setPrev b (some a)).setPrev x none).setNext x none

/-- Put `x` between the tail `t` and the head `h`. -/
def splice (L : Links α) (t x h : α) : Links α :=
  (((L.setPrev x (some t)).setNext x (some h)).setNext t (some x)).setPrev h (some x)

end Links

/-! ### Unlinking -/

theorem IsCycle.unlink_head {L : Links α} {x a b : α} {l : List α} (h : IsCycle L (x :: l))
    (ha : L.prev x = some a) (hb : L.next x = some b) : IsCycle (L.unlink a x b) l := by
  obtain ⟨hp, hn⟩ := h.head_links
  rcases List.eq_nil_or_concat' l with rfl | ⟨k, t, rfl⟩
  · exact .nil _
  obtain rfl : a = t := by simpa [ha, List.getLast?_cons] using hp
  obtain ⟨hxl, hl⟩ := List.nodup_cons.mp h.nodup
  have hc := h.chain a (by simp [List.getLast?_cons])
  refine ⟨hl, fun u hlast => ?_⟩
  obtain rfl : a = u := by simpa using hlast
  obtain ⟨y, l', hy⟩ : ∃ y l', (k ++ [a]) = y :: l' :=
    List.exists_cons_of_ne_nil (by simp)
  obtain rfl : b = y := by simpa [hb, hy] using hn
  have hal : a ∈ b :: l' := by rw [← hy]; simp
  rw [hy] at hc hl hxl ⊢
  simp only [List.mem_cons, not_or] at hxl
  obtain ⟨hxb, hxl'⟩ := hxl
  have hxa : a ≠ x := by
    rintro rfl
    rcases List.mem_cons.mp hal with h | h
    · exact hxb h
    · exact hxl' h
  refine List.isChain_cons_cons.mpr ⟨⟨?_, ?_⟩, ?_⟩
  · simp [Links.unlink, hxa]
  · simp [Links.unlink, Ne.symm hxb]
  -- inside the rest no link is written: `a` is its last element, `b` its first
  refine isChain_imp_inner hc.tail.tail ?_
  intro u hu v hv ⟨hun, hvp⟩
  have hua : u ≠ a := by
    rintro rfl
    have hk : (b :: l').dropLast = k := by rw [← hy]; simp
    have := (hy ▸ hl : (k ++ [u]).Nodup)
    rw [hk] at hu
    simp [List.nodup_append] at this
    exact this.2 u hu rfl
  have hux : u ≠ x := by
    rintro rfl
    rcases List.mem_cons.mp (List.dropLast_subset _ hu) with h | h
    · exact hxb h
    · exact hxl' h
  have hvb : v ≠ b := fun hvb => (List.nodup_cons.mp hl).1 (hvb ▸ hv)
  have hvx : v ≠ x := fun hvx => hxl' (hvx ▸ hv)
  exact ⟨by simp [Links.unlink, hua, hux, hun], by simp [Links.unlink, hvb, hvx, hvp]⟩

/-- Unlinking an element at any place takes it out of the list. -/
theorem IsCycle.unlink {L : Links α} {x a b : α} {l₁ l₂ : List α}
    (h : IsCycle L (l₁ ++ x :: l₂)) (ha : L.prev x = some a) (hb : L.next x = some b) :
    IsCycle (L.unlink a x b) (l₁ ++ l₂) := by
  have hr : IsCycle L (x :: (l₂ ++ l₁)) := by simpa using h.rotate
  exact (hr.unlink_head ha hb).rotate

/-- Unlinking writes to the element and its two neighbours only. -/
theorem Links.unlink_agreeOn {L : Links α} {a x b : α} {l : List α} (ha : a ∉ l) (hx : x ∉ l)
    (hb : b ∉ l) : L.AgreeOn (L.unlink a x b) l := by
  intro y hy
  have h1 : y ≠ a := fun h => ha (h ▸ hy)
  have h2 : y ≠ x := fun h => hx (h ▸ hy)
  have h3 : y ≠ b := fun h => hb (h ▸ hy)
  simp [Links.unlink, h1, h2, h3]

/-! ### Splicing -/

/-- Splicing a new element behind the tail appends it. -/
theorem IsCycle.splice {L : Links α} {x t h : α} {l : List α} (hc : IsCycle L l) (hx : x ∉ l)
    (ht : l.getLast? = some t) (hh : l.head? = some h) :
    IsCycle (L.splice t x h) (l ++ [x]) := by
  obtain ⟨k, rfl⟩ := List.head?_eq_some_iff.mp hh
  have htl : t ∈ h :: k := List.mem_of_getLast? ht
  have hxt : t ≠ x := fun e => hx (e ▸ htl)
  have hxh : h ≠ x := fun e => hx (e ▸ by simp)
  have hch := hc.chain t (by simp [ht])
  have hnd : (h :: k ++ [x]).Nodup := by
    refine List.nodup_append.mpr ⟨hc.nodup, by simp, ?_⟩
    intro a ha b hb
    obtain rfl : b = x := by simpa using hb
    exact fun e => hx (e ▸ ha)
  refine isCycle_concat.mpr ⟨hnd, ?_⟩
  show (x :: h :: (k ++ [x])).IsChain _
  refine List.isChain_cons_cons.mpr ⟨⟨?_, ?_⟩, ?_⟩
  · simp [Links.splice, Ne.symm hxt]
  · simp [Links.splice]
  obtain ⟨k', hk'⟩ := List.getLast?_eq_some_iff.mp ht
  have hsplit : h :: (k ++ [x]) = k' ++ t :: [x] := by
    rw [← List.cons_append, hk']; simp
  rw [hsplit]
  refine List.isChain_split.mpr ⟨?_, ?_⟩
  · rw [← hk']
    refine isChain_imp_inner hch.tail ?_
    intro u hu v hv ⟨hun, hvp⟩
    have hut : u ≠ t := by
      rintro rfl
      rw [hk', List.dropLast_concat] at hu
      have := hk' ▸ hc.nodup
      simp [List.nodup_append] at this
      exact this.2 u hu rfl
    have hux : u ≠ x := fun e => hx (e ▸ List.dropLast_subset _ hu)
    have hvh : v ≠ h := fun e => (List.nodup_cons.mp hc.nodup).1 (e ▸ hv)
    have hvx : v ≠ x := fun e => hx (e ▸ List.mem_cons_of_mem _ hv)
    exact ⟨by simp [Links.splice, hut, hux, hun], by simp [Links.splice, hvh, hvx, hvp]⟩
  · refine List.isChain_cons_cons.mpr ⟨⟨?_, ?_⟩, .singleton _⟩
    · simp [Links.splice]
    · simp [Links.splice, Ne.symm hxh]

/-- Splicing writes to the element, the tail and the head only. -/
theorem Links.splice_agreeOn {L : Links α} {t x h : α} {l : List α} (ht : t ∉ l) (hx : x ∉ l)
    (hh : h ∉ l) : L.AgreeOn (L.splice t x h) l := by
  intro y hy
  have h1 : y ≠ t := fun e => ht (e ▸ hy)
  have h2 : y ≠ x := fun e => hx (e ▸ hy)
  have h3 : y ≠ h := fun e => hh (e ▸ hy)
  simp [Links.splice, h1, h2, h3]

namespace IsQueue

variable {L L' : Links α} {h : Option α} {l : List α}

/-- Removing the head. -/
theorem unlink_head {x a b : α} (hq : IsQueue L h (x :: l)) (ha : L.prev x = some a)
    (hb : L.next x = some b) : IsQueue (L.unlink a x b) l.head? l := by
  obtain ⟨hp, hn⟩ := hq.head_links
  cases l with
  | nil => exact nil _
  | cons y l =>
      obtain rfl : b = y := by simpa [hb] using hn
      obtain ⟨hxl, hl⟩ := List.nodup_cons.mp hq.nodup
      have hla : (b :: l).getLast? = some a := by simpa [ha] using hp.symm
      have hal : a ∈ b :: l := List.mem_of_getLast? hla
      have hxa : a ≠ x := fun e => hxl (e ▸ hal)
      have hxb : b ≠ x := fun e => hxl (e ▸ by simp)
      refine ⟨hl, rfl, ?_, ?_, ?_⟩
      · obtain ⟨k, hk⟩ := List.getLast?_eq_some_iff.mp hla
        refine isChain_imp_inner hq.path.tail ?_
        intro u hu v _ huv
        have hua : u ≠ a := by
          rintro rfl
          rw [hk, List.dropLast_concat] at hu
          have := hk ▸ hl
          simp [List.nodup_append] at this
          exact this.2 u hu rfl
        have hux : u ≠ x := fun e => hxl (e ▸ List.dropLast_subset _ hu)
        simp [Links.unlink, hua, hux, huv]
      · intro c hc
        obtain rfl : b = c := by simpa using hc
        simp [Links.unlink, hxb, hla]
      · intro z hz
        obtain rfl : a = z := by simpa [hla] using hz
        exact .inl (by simp [Links.unlink, hxa])

/-- Adding behind the last element, be `x` new or already at some later
place in the queue: what stood behind it there is cut off. -/
theorem splice_front {k m : List α} {x z : α} {f : α} (hq : IsQueue L h (f :: k ++ m))
    (hz : (f :: k ++ m).getLast? = some z) (hx : x ∉ f :: k) (hm : ∀ y ∈ m.head?, y = x) :
    IsQueue (L.splice z x f) (some f) (f :: k ++ [x]) := by
  simp only [List.mem_cons, not_or] at hx
  have hnd : (f :: k).Nodup := (List.nodup_append.mp hq.nodup).1
  have hnd' : (f :: k ++ [x]).Nodup := by
    refine List.nodup_append.mpr ⟨hnd, by simp, ?_⟩
    intro a ha b hb
    obtain rfl : b = x := by simpa using hb
    rintro rfl
    exact (List.mem_cons.mp ha).elim hx.1 hx.2
  have hzk : z ∈ f :: k → m = [] := by
    intro hzk
    rcases List.eq_nil_or_concat' m with rfl | ⟨m', y, rfl⟩
    · rfl
    · rw [← List.append_assoc, List.getLast?_concat] at hz
      obtain rfl : y = z := Option.some.inj hz
      exact absurd rfl ((List.nodup_append.mp hq.nodup).2.2 y hzk y (by simp))
  refine ⟨hnd', rfl, ?_, ?_, ?_⟩
  · obtain ⟨k', w, hw⟩ : ∃ k' w, f :: k = k' ++ [w] :=
      ⟨_, _, (List.dropLast_append_getLast (List.cons_ne_nil f k)).symm⟩
    have hwx : w ≠ x := by
      rintro rfl
      have : w ∈ f :: k := hw ▸ by simp
      exact (List.mem_cons.mp this).elim hx.1 hx.2
    have hsplit : f :: k ++ [x] = k' ++ w :: [x] := by rw [hw]; simp
    rw [hsplit]
    refine List.isChain_split.mpr ⟨?_, ?_⟩
    · rw [← hw]
      refine isChain_imp_inner hq.path.left_of_append ?_
      intro u hu v _ huv
      have huk : u ∈ f :: k := List.dropLast_subset _ hu
      have hux : u ≠ x := by
        rintro rfl
        exact (List.mem_cons.mp huk).elim hx.1 hx.2
      have huz : u ≠ z := by
        rintro rfl
        -- then nothing was behind `f :: k`, and `u` would be its last element too
        obtain rfl := hzk huk
        rw [List.append_nil, hw, List.getLast?_concat] at hz
        obtain rfl : w = u := by simpa using hz
        rw [hw, List.dropLast_concat] at hu
        have := hw ▸ hnd
        simp [List.nodup_append] at this
        exact this.2 w hu rfl
      simp [Links.splice, hux, huz, huv]
    · refine List.isChain_pair.mpr ?_
      by_cases hwz : w = z
      · simp [Links.splice, hwz]
      · have hnext : L.next w = some x := by
          cases m with
          | nil =>
              rw [List.append_nil, hw, List.getLast?_concat] at hz
              exact absurd (by simpa using hz) hwz
          | cons y m =>
              obtain rfl : y = x := hm y rfl
              have hp := hq.path
              rw [hw, List.append_assoc] at hp
              exact (List.isChain_cons_cons.mp hp.right_of_append).1
        simp [Links.splice, hwx, hwz, hnext]
  · intro a ha
    obtain rfl : f = a := by simpa using ha
    rw [List.getLast?_concat]
    simp [Links.splice]
  · intro y hy
    rw [List.getLast?_concat] at hy
    obtain rfl : x = y := Option.some.inj hy
    by_cases hxz : x = z
    · exact .inr (by simp [Links.splice, hxz])
    · exact .inl (by simp [Links.splice, hxz])

end IsQueue

end Intrusive
