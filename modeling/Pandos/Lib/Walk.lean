/-
# `Pandos.Lib.Walk` — reading a threaded list back

What `Lib.Ring` and `Lib.Chain` say of a list that is threaded through a
table determines the list: a walk along `next` that stops at the right place
returns it.  So the lists are not only described but computed, from the
pointers alone.
-/
import Pandos.Lib.Chain
import Pandos.Lib.Ring

namespace Intrusive

variable {α : Type}

/-- Along `next` from a pointer, up to and with the first element that stops. -/
def walk (next : α → Option α) (stop : α → Bool) : Nat → Option α → List α
  | 0, _ => []
  | _ + 1, none => []
  | n + 1, some a => a :: if stop a then [] else walk next stop n (next a)

variable {next : α → Option α}

theorem walk_eq_of_isChain {stop : α → Bool} {l : List α} (hc : l.IsChain fun a b => next a = some b)
    (hin : ∀ x ∈ l.dropLast, stop x = false) (hlast : ∀ z ∈ l.getLast?, stop z = true) :
    ∀ {n : Nat}, l.length ≤ n → walk next stop n l.head? = l := by
  induction l with
  | nil =>
      intro n _
      cases n <;> rfl
  | cons a l ih =>
      intro n hn
      cases n with
      | zero => simp at hn
      | succ n =>
          cases l with
          | nil => simp [walk, hlast a (by simp)]
          | cons b l =>
              obtain ⟨hab, hc⟩ := List.isChain_cons_cons.mp hc
              have hstop : stop a = false := hin a (by simp)
              have := ih hc (fun x hx => hin x (by simp [hx]))
                (fun z hz => hlast z (by simpa [List.getLast?_cons_cons] using hz))
                (by simpa using hn)
              simpa [walk, hstop, hab] using this

theorem Seg.walk_eq {l : List α} {h : Option α} (hs : Seg next h l none) :
    ∀ {n : Nat}, l.length ≤ n → walk next (fun _ => false) n h = l := by
  induction l generalizing h with
  | nil =>
      intro n _
      obtain rfl : h = none := hs
      cases n <;> rfl
  | cons a l ih =>
      intro n hn
      obtain ⟨rfl, hs⟩ := hs
      cases n with
      | zero => simp at hn
      | succ n => simp [walk, ih hs (by simpa using hn)]

theorem ne_last_of_mem_dropLast {l : List α} (hl : l.Nodup) {x z : α} (hx : x ∈ l.dropLast)
    (hz : l.getLast? = some z) : x ≠ z := by
  obtain ⟨k, rfl⟩ := List.getLast?_eq_some_iff.mp hz
  rintro rfl
  rw [List.dropLast_concat] at hx
  exact (List.nodup_append.mp hl).2.2 x hx x (by simp) rfl

variable [DecidableEq α]

/-- The ring a tail pointer leads to, from its head. -/
def Links.ringAt (L : Links α) (n : Nat) : Option α → List α
  | none => []
  | some t => walk L.next (· = t) n (L.next t)

/-- The queue a head pointer leads to. -/
def Links.queueAt (L : Links α) (n : Nat) : Option α → List α
  | none => []
  | some h => walk L.next (fun x => some x = L.prev h) n (some h)

variable {L : Links α} {l : List α} {n : Nat}

theorem IsRing.ringAt_eq {t : Option α} (h : IsRing L t l) (hn : l.length ≤ n) :
    L.ringAt n t = l := by
  cases t with
  | none => exact (h.eq_nil_iff.mp rfl).symm
  | some t =>
      obtain ⟨k, hk, hnext⟩ := h.of_some
      have hchain := (h.cycle.chain t h.tail_eq.symm).tail.imp
        (S := fun a b => L.next a = some b) fun _ _ h => h.1
      simp only [Links.ringAt, hnext]
      refine walk_eq_of_isChain hchain ?_ ?_ hn
      · intro x hx
        simpa using ne_last_of_mem_dropLast h.nodup hx h.tail_eq.symm
      · intro z hz
        have : some t = some z := h.tail_eq.trans hz
        simpa using this.symm

theorem IsQueue.queueAt_eq {t : Option α} (h : IsQueue L t l) (hn : l.length ≤ n) :
    L.queueAt n t = l := by
  cases l with
  | nil =>
      obtain rfl : t = none := h.head_eq
      rfl
  | cons a l =>
      obtain rfl : t = some a := h.head_eq
      have hback := h.back a (by simp)
      refine walk_eq_of_isChain h.path ?_ ?_ hn
      · intro x hx
        obtain ⟨z, hz⟩ : ∃ z, (a :: l).getLast? = some z :=
          Option.isSome_iff_exists.mp (by simp)
        have hxz := ne_last_of_mem_dropLast h.nodup hx hz
        simpa [hback, hz] using hxz
      · intro z hz
        rw [hback, hz]
        simp

end Intrusive
