/-
# `Pandos.ProcQ` — the process queues of `pcb.c`

The queue functions work on the link fields `p_next`/`p_prev` of the PCBs and
on a tail pointer.  Here both are arguments and results; `none` as the result
of the whole function is a null dereference or a loop that never ends.

    insertProcQ   appends                                      (`insertProcQ_spec`)
    removeProcQ   takes the first element                      (`removeProcQ_spec`)
    outProcQ      takes any element, or finds it is not there   (`outProcQ_spec`)

The loop of `outProcQ` follows `p_next` until it meets the tail.  It visits
pairwise distinct PCBs or never ends, so `maxProc` rounds decide it.
-/
import Pandos.Lib.Ring
import Pandos.Types

namespace Pandos

open Intrusive

/-- `p_next` and `p_prev` of every PCB. -/
abbrev QLinks := Links PcbPtr

/-! ## The functions -/

def unlinkPCB (L : QLinks) (p : PcbPtr) : Option QLinks := do
  let a ← L.prev p
  let L := L.setNext a (L.next p)
  let b ← L.next p
  let L := L.setPrev b (L.prev p)
  let L := L.setPrev p none
  return L.setNext p none

def mkEmptyProcQ : Option PcbPtr := none

def emptyProcQ (tp : Option PcbPtr) : Bool := tp.isNone

def insertProcQ (L : QLinks) (tp : Option PcbPtr) (p : PcbPtr) :
    Option (QLinks × Option PcbPtr) := do
  match tp with
  | none =>
      let L := L.setNext p (some p)
      let L := L.setPrev p (some p)
      return (L, some p)
  | some t =>
      let L := L.setPrev p (some t)
      let L := L.setNext p (L.next t)
      let L := L.setNext t (some p)
      let b ← L.next p
      let L := L.setPrev b (some p)
      return (L, some p)

def headProcQ (L : QLinks) (tp : Option PcbPtr) : Option PcbPtr :=
  match tp with
  | none => none
  | some t => L.next t

/-- The removed PCB, the links and the new tail. -/
def removeProcQ (L : QLinks) (tp : Option PcbPtr) :
    Option (Option PcbPtr × QLinks × Option PcbPtr) := do
  if emptyProcQ tp then
    return (none, L, tp)
  let tmp ← headProcQ L tp
  let tp := if some tmp = tp then none else tp
  let L ← unlinkPCB L tmp
  return (some tmp, L, tp)

/-- The search of `outProcQ`, from `iter` round to the tail `t`. -/
def outProcQLoop (L : QLinks) (t p : PcbPtr) : Nat → Option PcbPtr → Option Bool
  | 0, _ => none
  | fuel + 1, iter =>
      if iter = some p then some true
      else do
        let iter ← iter
        let iter := L.next iter
        if iter ≠ some t then outProcQLoop L t p fuel iter else return false

def outProcQ (L : QLinks) (tp : Option PcbPtr) (p : PcbPtr) :
    Option (Option PcbPtr × QLinks × Option PcbPtr) := do
  match tp with
  | none => return (none, L, tp)
  | some t =>
      if t = p then
        let tp := if some t ≠ L.prev t then L.prev t else none
        let L ← unlinkPCB L p
        return (some p, L, tp)
      else if (← outProcQLoop L t p maxProc (L.next t)) then
        let L ← unlinkPCB L p
        return (some p, L, some t)
      else
        return (none, L, some t)

/-! ## What they do to a ring -/

/-- On an element of a cycle the pointer code is `Links.unlink`. -/
theorem unlinkPCB_eq {L : QLinks} {p a b : PcbPtr} (ha : L.prev p = some a)
    (hb : L.next p = some b) (hab : p = a → b = p) (hba : p = b → a = p) :
    unlinkPCB L p = some (L.unlink a p b) := by
  by_cases hpa : p = a
  · obtain rfl := hpa
    obtain rfl := hab rfl
    simp [unlinkPCB, Links.unlink, ha, hb]
  · have hpb : p ≠ b := fun h => hpa (hba h).symm
    simp [unlinkPCB, Links.unlink, ha, hb]

theorem IsCycle.unlinkPCB_eq {L : QLinks} {l : List PcbPtr} {p : PcbPtr} (h : IsCycle L l)
    (hp : p ∈ l) : ∃ a ∈ l, ∃ b ∈ l, L.prev p = some a ∧ L.next p = some b ∧
      unlinkPCB L p = some (L.unlink a p b) := by
  obtain ⟨l₁, l₂, rfl⟩ := List.append_of_mem hp
  have hr : IsCycle L (p :: (l₂ ++ l₁)) := by simpa using h.rotate
  obtain ⟨a, ham, b, hbm, ha, hb⟩ := h.links_isSome hp
  refine ⟨a, ham, b, hbm, ha, hb, Pandos.unlinkPCB_eq ha hb ?_ ?_⟩
  all_goals
    rintro rfl
    obtain ⟨hprev, hnext⟩ := hr.head_links
    cases hl : l₂ ++ l₁ with
    | nil => simp_all
    | cons y l =>
        have hnd := hr.nodup
        rw [hl] at hnd hprev hnext
        exfalso
        first
        | rw [ha, List.getLast?_cons_cons] at hprev
          exact (List.nodup_cons.mp hnd).1 (List.mem_of_getLast? hprev.symm)
        | rw [hb] at hnext
          simp at hnext
          exact (List.nodup_cons.mp hnd).1 (by simp [hnext])

theorem insertProcQ_spec {L : QLinks} {tp : Option PcbPtr} {l : List PcbPtr} {p : PcbPtr}
    (h : IsRing L tp l) (hp : p ∉ l) :
    ∃ L', insertProcQ L tp p = some (L', some p) ∧ IsRing L' (some p) (l ++ [p]) ∧
      ∀ m : List PcbPtr, m.Disjoint l → p ∉ m → L.AgreeOn L' m := by
  cases tp with
  | none =>
      obtain rfl := h.eq_nil_iff.mp rfl
      refine ⟨_, rfl, IsRing.single (by simp) (by simp), ?_⟩
      intro m _ hpm x hx
      have : x ≠ p := fun e => hpm (e ▸ hx)
      simp [this]
  | some t =>
      obtain ⟨k, hk, hnext⟩ := h.of_some
      obtain ⟨f, hf⟩ : ∃ f, l.head? = some f := Option.isSome_iff_exists.mp (by simp [hk])
      have htl : t ∈ l := hk ▸ by simp
      have hfl : f ∈ l := List.mem_of_head? hf
      have htp : t ≠ p := fun e => hp (e ▸ htl)
      refine ⟨L.splice t p f, ?_, ⟨h.cycle.splice hp h.tail_eq.symm hf, by simp⟩, ?_⟩
      · simp [insertProcQ, Links.splice, hnext, hf, Ne.symm htp]
      · intro m hm hpm
        exact Links.splice_agreeOn (fun e => hm e htl) hpm (fun e => hm e hfl)

/-- Removing a member at any place. -/
theorem IsRing.unlinkPCB_spec {L : QLinks} {tp : Option PcbPtr} {l₁ l₂ : List PcbPtr}
    {p : PcbPtr} (h : IsRing L tp (l₁ ++ p :: l₂)) :
    ∃ L', unlinkPCB L p = some L' ∧ IsCycle L' (l₁ ++ l₂) ∧
      ∀ m : List PcbPtr, m.Disjoint (l₁ ++ p :: l₂) → L.AgreeOn L' m := by
  obtain ⟨a, ha, b, hb, hpa, hpb, hu⟩ := IsCycle.unlinkPCB_eq h.cycle (p := p) (by simp)
  refine ⟨_, hu, h.cycle.unlink hpa hpb, ?_⟩
  intro m hm
  exact Links.unlink_agreeOn (fun e => hm e ha) (fun e => hm e (by simp)) (fun e => hm e hb)

theorem removeProcQ_nil (L : QLinks) : removeProcQ L none = some (none, L, none) := rfl

theorem removeProcQ_spec {L : QLinks} {tp : Option PcbPtr} {l : List PcbPtr} {p : PcbPtr}
    (h : IsRing L tp (p :: l)) :
    ∃ L' tp', removeProcQ L tp = some (some p, L', tp') ∧ IsRing L' tp' l ∧
      ∀ m : List PcbPtr, m.Disjoint (p :: l) → L.AgreeOn L' m := by
  obtain ⟨L', hu, hc, hf⟩ := @IsRing.unlinkPCB_spec L tp [] l p h
  cases tp with
  | none => simpa using h.eq_nil_iff.mp rfl
  | some t =>
      obtain ⟨k, hk, hnext⟩ := h.of_some
      have hnext' : L.next t = some p := by simpa using hnext
      refine ⟨L', if p = t then none else some t, ?_, ⟨hc, ?_⟩, hf⟩
      · simp [removeProcQ, emptyProcQ, headProcQ, hnext', hu]
      · cases l with
        | nil =>
            obtain rfl : p = t := by simpa using h.tail_eq.symm
            simp
        | cons y l =>
            have htail := h.tail_eq
            rw [List.getLast?_cons_cons] at htail
            have hpt : p ≠ t := by
              rintro rfl
              exact (List.nodup_cons.mp h.nodup).1 (List.mem_of_getLast? htail.symm)
            simpa [hpt] using htail

/-- One round of the search. -/
theorem outProcQLoop_succ {L : QLinks} {t p a : PcbPtr} {fuel : Nat} (hap : a ≠ p) :
    outProcQLoop L t p (fuel + 1) (some a) =
      if L.next a ≠ some t then outProcQLoop L t p fuel (L.next a) else some false :=
  if_neg fun h => hap (Option.some.inj h)

/-- The search finds exactly the members: from the head on, `k` is what is
still to be looked at. -/
theorem outProcQLoop_spec {L : QLinks} {t p : PcbPtr} (htp : t ≠ p) :
    ∀ {k : List PcbPtr} {fuel : Nat}, (k ++ [t]).IsChain (fun a b => L.next a = some b) →
      t ∉ k → k ≠ [] → k.length ≤ fuel →
      outProcQLoop L t p fuel k.head? = some (decide (p ∈ k))
  | [], _, _, _, hk, _ => absurd rfl hk
  | a :: k, 0, _, _, _, hf => by simp at hf
  | a :: k, fuel + 1, hc, ht, _, hf => by
      have hat : a ≠ t := fun e => ht (by simp [e])
      by_cases hap : a = p
      · simp [outProcQLoop, hap]
      cases k with
      | nil =>
          have hn : L.next a = some t := by simpa using hc
          rw [List.head?_cons, outProcQLoop_succ hap]
          simp [hn, Ne.symm hap]
      | cons b k =>
          obtain ⟨hn, hc'⟩ := List.isChain_cons_cons.mp hc
          have hbt : b ≠ t := fun e => ht (by simp [e])
          have ih := @outProcQLoop_spec L t p htp (b :: k) fuel hc'
            (fun h => ht (List.mem_cons_of_mem _ h)) (by simp) (by simpa using hf)
          simp only [List.head?_cons] at ih ⊢
          rw [outProcQLoop_succ hap]
          simp [hn, hbt, ih, Ne.symm hap]

theorem length_le_maxProc {l : List PcbPtr} (h : l.Nodup) : l.length ≤ maxProc := by
  simpa using List.Nodup.length_le_card h

/-- The search of `outProcQ` on a whole ring, the tail excepted. -/
theorem IsRing.outProcQLoop_eq {L : QLinks} {t p : PcbPtr} {l : List PcbPtr}
    (h : IsRing L (some t) l) (htp : t ≠ p) :
    outProcQLoop L t p maxProc (L.next t) = some (decide (p ∈ l)) := by
  obtain ⟨k, rfl, hnext⟩ := h.of_some
  have hlen := length_le_maxProc h.nodup
  simp only [List.length_append, List.length_cons, List.length_nil] at hlen
  have hchain := (h.cycle.chain t (by simp)).tail.imp (S := fun a b => L.next a = some b)
    fun _ _ h => h.1
  rw [hnext]
  cases k with
  | nil =>
      -- the ring is the tail alone: one round, back at the tail
      have hn : L.next t = some t := by simpa using hnext
      have hround : outProcQLoop L t p maxProc (some t) = _ := outProcQLoop_succ htp
      rw [List.nil_append, List.head?_cons, hround]
      simp [hn, Ne.symm htp]
  | cons f k =>
      have ht : t ∉ f :: k := by
        have := h.nodup
        simp only [List.nodup_append, List.mem_singleton] at this
        exact fun e => this.2.2 t e t rfl rfl
      have := @outProcQLoop_spec L t p htp (f :: k) maxProc hchain ht (by simp)
        (by simp at hlen ⊢; omega)
      simpa [Ne.symm htp] using this

theorem outProcQ_spec {L : QLinks} {tp : Option PcbPtr} {l : List PcbPtr} {p : PcbPtr}
    (h : IsRing L tp l) (hp : p ∈ l) :
    ∃ L' tp', outProcQ L tp p = some (some p, L', tp') ∧ IsRing L' tp' (l.erase p) ∧
      ∀ m : List PcbPtr, m.Disjoint l → L.AgreeOn L' m := by
  obtain ⟨l₁, l₂, rfl⟩ := List.append_of_mem hp
  obtain ⟨L', hu, hc, hf⟩ := IsRing.unlinkPCB_spec h
  have hp₁ : p ∉ l₁ := by
    have := h.nodup
    simp only [List.nodup_append, List.mem_cons] at this
    exact fun e => this.2.2 p e p (Or.inl rfl) rfl
  have herase : (l₁ ++ p :: l₂).erase p = l₁ ++ l₂ := by
    rw [List.erase_append_right _ hp₁]; simp
  rw [herase]
  cases tp with
  | none => simpa using h.eq_nil_iff.mp rfl
  | some t =>
      by_cases htp : t = p
      · -- the tail goes, and its predecessor is the new tail
        subst htp
        obtain ⟨k, hk, _⟩ := h.of_some
        obtain rfl : l₂ = [] := by
          rcases List.eq_nil_or_concat' l₂ with rfl | ⟨m, y, rfl⟩
          · rfl
          · rw [← List.cons_append, ← List.append_assoc] at hk
            obtain ⟨rfl, hy⟩ := List.append_inj' hk rfl
            obtain rfl : y = t := by simpa using hy
            have := h.nodup
            simp [List.nodup_append] at this
        have hr : IsCycle L (t :: l₁) := by simpa using h.cycle.rotate
        obtain ⟨hprev, -⟩ := hr.head_links
        simp only [List.append_nil] at hc hf ⊢
        refine ⟨L', if some t ≠ L.prev t then L.prev t else none, ?_, ⟨hc, ?_⟩, hf⟩
        · simp [outProcQ, hu]
        · rcases List.eq_nil_or_concat' l₁ with rfl | ⟨m, y, rfl⟩
          · simp at hprev; simp [hprev]
          · have hy : y ≠ t := fun e => hp₁ (by simp [e])
            rw [← List.cons_append, List.getLast?_concat] at hprev
            simp [hprev, Ne.symm hy]
      · refine ⟨L', some t, ?_, ⟨hc, ?_⟩, hf⟩
        · simp [outProcQ, htp, IsRing.outProcQLoop_eq h htp, hu]
        · have htail := h.tail_eq
          rcases List.eq_nil_or_concat' l₂ with rfl | ⟨m, y, rfl⟩
          · rw [List.getLast?_concat] at htail
            exact absurd (Option.some.inj htail) htp
          · rw [← List.cons_append, ← List.append_assoc, List.getLast?_concat] at htail
            rw [← List.append_assoc, List.getLast?_concat, htail]

theorem outProcQ_not_mem {L : QLinks} {tp : Option PcbPtr} {l : List PcbPtr} {p : PcbPtr}
    (h : IsRing L tp l) (hp : p ∉ l) : outProcQ L tp p = some (none, L, tp) := by
  cases tp with
  | none => rfl
  | some t =>
      obtain ⟨k, hk, _⟩ := h.of_some
      have htp : t ≠ p := fun e => hp (hk ▸ by simp [e])
      simp [outProcQ, htp, IsRing.outProcQLoop_eq h htp, hp]

end Pandos
