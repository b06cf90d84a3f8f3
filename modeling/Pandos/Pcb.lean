/-
# `Pandos.Pcb` — the free ring of `pcb.c`

`initPcbs`, and the parts of `freePcb` and `allocPcb` that work on the ring
`pcbFree_h`; the fields they clear besides are in `Pandos.Nucleus`.

    freePcbRing    the element goes behind the last one      (`freePcbRing_spec`)
    allocPcbRing   the head leaves                           (`allocPcbRing_spec`)

Freeing a PCB that already stands in the ring does not duplicate it: the ring
is cut behind the places before it, and the elements that followed are lost.
`takeWhile (· ≠ p) free ++ [p]` says both cases at once.
-/
import Mathlib.Data.Fin.Basic
import Pandos.Asl

namespace Pandos

open Intrusive

/-! ## The functions -/

def initPcbs (q : Queues) : Queues :=
  { q with
    pcbFreeH := some 0
    links := (List.finRange maxProc).foldl
      (fun L i => (L.setNext i (some (i + 1))).setPrev (i + 1) (some i)) q.links }

def freePcbRing (q : Queues) (p : PcbPtr) : Option Queues := do
  match q.pcbFreeH with
  | none =>
      let L := q.links.setPrev p (some p)
      let L := L.setNext p (some p)
      return { q with pcbFreeH := some p, links := L }
  | some h =>
      let L := q.links.setNext p (some h)
      let L := L.setPrev p (L.prev h)
      let L := L.setPrev h (some p)
      let b ← L.prev p
      let L := L.setNext b (some p)
      return { q with links := L }

def allocPcbRing (q : Queues) : Option (Option PcbPtr × Queues) := do
  match q.pcbFreeH with
  | none => return (none, q)
  | some toReturn =>
      let q := { q with
        pcbFreeH := if some toReturn ≠ q.links.next toReturn then q.links.next toReturn else none }
      let L ← unlinkPCB q.links toReturn
      let L := L.setPrev toReturn none
      let L := L.setNext toReturn none
      return (some toReturn, { q with links := L })

/-! ## What they do to the ring -/

/-- The free PCBs, as the nucleus reaches them; a cycle unless some PCB was
freed twice. -/
structure FreeRing (q : Queues) (free : List PcbPtr) (dup : Bool) : Prop where
  queue : IsQueue q.links q.pcbFreeH free
  cycle : dup = false → IsCycle q.links free

/-- Nothing but the free ring has changed. -/
structure OnlyRing (q q' : Queues) (touched : List PcbPtr) : Prop where
  pSemAdd : q'.pSemAdd = q.pSemAdd
  readyQueue : q'.readyQueue = q.readyQueue
  links : ∀ m : List PcbPtr, m.Disjoint touched → q.links.AgreeOn q'.links m
  sNext : q'.sNext = q.sNext
  sSemAdd : q'.sSemAdd = q.sSemAdd
  sProcQ : q'.sProcQ = q.sProcQ
  semdFreeH : q'.semdFreeH = q.semdFreeH
  semdH : q'.semdH = q.semdH

namespace FreeRing

variable {q q' : Queues} {free : List PcbPtr} {dup : Bool}

theorem congr (h : FreeRing q free dup) (hH : q'.pcbFreeH = q.pcbFreeH)
    (hL : q.links.AgreeOn q'.links free) : FreeRing q' free dup :=
  ⟨hH ▸ h.queue.congr hL, fun e => (h.cycle e).congr hL⟩

theorem allocPcbRing_nil (h : FreeRing q [] dup) : allocPcbRing q = some (none, q) := by
  have : q.pcbFreeH = none := h.queue.head_eq
  simp [allocPcbRing, this]

theorem allocPcbRing_spec {p : PcbPtr} (h : FreeRing q (p :: free) dup) :
    ∃ q', allocPcbRing q = some (some p, q') ∧ FreeRing q' free dup ∧
      OnlyRing q q' (p :: free) := by
  obtain ⟨hprev, hnext⟩ := h.queue.head_links
  obtain ⟨a, ha⟩ : ∃ a, (p :: free).getLast? = some a := Option.isSome_iff_exists.mp (by simp)
  obtain ⟨b, hb⟩ : ∃ b, (free ++ [p]).head? = some b := Option.isSome_iff_exists.mp (by simp)
  rw [ha] at hprev
  rw [hb] at hnext
  have ham := List.mem_of_getLast? ha
  have hbm : b ∈ p :: free := by
    have := List.mem_of_head? hb
    simp at this ⊢
    tauto
  obtain ⟨hpf, _⟩ := List.nodup_cons.mp h.queue.nodup
  have hpab : (p = a → b = p) ∧ (p = b → a = p) := by
    cases free with
    | nil => simp_all
    | cons y l =>
        have hy : y = b := by simpa using hb
        rw [List.getLast?_cons_cons] at ha
        refine ⟨fun e => absurd (e ▸ List.mem_of_getLast? ha) hpf, fun e => absurd ?_ hpf⟩
        rw [e, ← hy]
        simp
  have hu := unlinkPCB_eq hprev hnext hpab.1 hpab.2
  have hclear : ((q.links.unlink a p b).setPrev p none).setNext p none = q.links.unlink a p b := by
    simp only [Links.unlink, Links.setNext, Links.setPrev, Function.update_idem]
  have hH : (if some p ≠ q.links.next p then q.links.next p else none) = free.head? := by
    rw [hnext, ← hb]
    cases free with
    | nil => simp
    | cons y l =>
        have : p ≠ y := fun e => hpf (by simp [e])
        simp [this]
  refine ⟨{ q with pcbFreeH := free.head?, links := q.links.unlink a p b }, ?_,
    ⟨h.queue.unlink_head hprev hnext, fun e => (h.cycle e).unlink_head hprev hnext⟩,
    ⟨rfl, rfl, ?_, rfl, rfl, rfl, rfl, rfl⟩⟩
  · simp only [allocPcbRing, h.queue.head_eq, List.head?_cons, hH, hu]
    simp [hclear]
  · intro m hm
    exact Links.unlink_agreeOn (fun e => hm e ham) (fun e => hm e (by simp)) (fun e => hm e hbm)

theorem freePcbRing_spec (h : FreeRing q free dup) (p : PcbPtr) :
    ∃ q', freePcbRing q p = some q' ∧
      FreeRing q' (free.takeWhile (· ≠ p) ++ [p]) (dup || decide (p ∈ free)) ∧
      OnlyRing q q' (p :: free) := by
  cases free with
  | nil =>
      have hH : q.pcbFreeH = none := h.queue.head_eq
      have hcyc : IsCycle ((q.links.setPrev p (some p)).setNext p (some p)) [p] :=
        (IsRing.single (by simp) (by simp)).cycle
      refine ⟨{ q with
        pcbFreeH := some p, links := (q.links.setPrev p (some p)).setNext p (some p) },
        by simp [freePcbRing, hH], ⟨.single (by simp) (by simp), fun _ => hcyc⟩,
        ⟨rfl, rfl, ?_, rfl, rfl, rfl, rfl, rfl⟩⟩
      intro m hm x hx
      have : x ≠ p := fun e => hm (e ▸ hx) (by simp)
      simp [this]
  | cons f l =>
      have hH : q.pcbFreeH = some f := h.queue.head_eq
      obtain ⟨z, hz⟩ : ∃ z, (f :: l).getLast? = some z := Option.isSome_iff_exists.mp (by simp)
      have hback : q.links.prev f = some z := (h.queue.back f (by simp)).trans hz
      have hzl := List.mem_of_getLast? hz
      by_cases hpf : p = f
      · -- the head is freed again: it is left alone in the ring
        subst hpf
        let L := ((q.links.setNext p (some p)).setPrev p (some z)).setPrev p (some p)
        have hring : IsRing (L.setNext p (some p)) (some p) [p] :=
          IsRing.single (by simp) (by simp [L])
        have htake : (p :: l).takeWhile (· ≠ p) = [] := by simp
        refine ⟨{ q with links := L.setNext p (some p) }, by simp [freePcbRing, hH, hback, L],
          ⟨?_, fun _ => ?_⟩, ⟨rfl, rfl, ?_, rfl, rfl, rfl, rfl, rfl⟩⟩
        · rw [htake]
          show IsQueue (L.setNext p (some p)) q.pcbFreeH [p]
          rw [hH]
          exact .of_cycle hring.cycle
        · rw [htake]
          exact hring.cycle
        · intro m hm x hx
          have : x ≠ p := fun e => hm (e ▸ hx) (by simp)
          simp [L, this]
      · have hx : p ∉ f :: l.takeWhile (· ≠ p) := by
          simp only [List.mem_cons, not_or]
          refine ⟨hpf, fun e => ?_⟩
          simpa using List.mem_takeWhile_imp e
        have hm : ∀ y ∈ (l.dropWhile (· ≠ p)).head?, y = p := by
          intro y hy
          have := List.head?_dropWhile_not (fun x => decide (x ≠ p)) l
          rw [hy] at this
          simpa using this
        have hsplit : f :: l.takeWhile (· ≠ p) ++ l.dropWhile (· ≠ p) = f :: l := by
          rw [List.cons_append, List.takeWhile_append_dropWhile]
        have htake : (f :: l).takeWhile (· ≠ p) = f :: l.takeWhile (· ≠ p) := by
          rw [List.takeWhile_cons, if_pos (by simpa using Ne.symm hpf)]
        have hq : IsQueue q.links q.pcbFreeH (f :: l.takeWhile (· ≠ p) ++ l.dropWhile (· ≠ p)) := by
          rw [hsplit]; exact h.queue
        have hspl := hq.splice_front (hsplit ▸ hz) hx hm
        refine ⟨{ q with links := q.links.splice z p f }, ?_, ⟨?_, ?_⟩,
          ⟨rfl, rfl, ?_, rfl, rfl, rfl, rfl, rfl⟩⟩
        · simp only [freePcbRing, hH, Links.setPrev_prev, Links.setNext_prev, hback]
          simp [Links.splice, hpf, Links.setNext, Links.setPrev]
        · rw [htake, hH]; exact hspl
        · intro hdup
          simp only [Bool.or_eq_false_iff, decide_eq_false_iff_not] at hdup
          have htw : (f :: l).takeWhile (· ≠ p) = f :: l := by
            refine List.takeWhile_eq_self_iff.mpr fun y hy => ?_
            have : y ≠ p := fun e => hdup.2 (e ▸ hy)
            simpa using this
          rw [htw]
          exact (h.cycle hdup.1).splice hdup.2 hz rfl
        · intro m hm
          exact Links.splice_agreeOn (fun e => hm e (List.mem_cons_of_mem _ hzl))
            (fun e => hm e (by simp)) (fun e => hm e (by simp))

end FreeRing

/-! ## Initially -/

private theorem foldl_ring : ∀ (l : List PcbPtr) (L : QLinks), l.Nodup → ∀ i,
    (l.foldl (fun L i => (L.setNext i (some (i + 1))).setPrev (i + 1) (some i)) L).next i
        = (if i ∈ l then some (i + 1) else L.next i) ∧
      (l.foldl (fun L i => (L.setNext i (some (i + 1))).setPrev (i + 1) (some i)) L).prev (i + 1)
        = (if i ∈ l then some i else L.prev (i + 1))
  | [], _, _, i => by simp
  | j :: l, L, hl, i => by
      obtain ⟨hj, hl⟩ := List.nodup_cons.mp hl
      obtain ⟨h1, h2⟩ := foldl_ring l _ hl i
      rw [List.foldl_cons, h1, h2]
      by_cases hi : i ∈ l
      · simp [hi]
      · by_cases hij : i = j
        · subst hij; simp [hj]
        · simp [hi, hij]

/-- The table in order is one cycle. -/
theorem initPcbs_spec (q : Queues) :
    FreeRing (initPcbs q) (List.finRange maxProc) false := by
  have h := foldl_ring (List.finRange maxProc) q.links (List.nodup_finRange _)
  simp only [List.mem_finRange, if_true] at h
  have hcyc : IsCycle (initPcbs q).links (List.finRange maxProc) := by
    refine ⟨List.nodup_finRange _, ?_⟩
    intro t ht
    have hlast : t = Fin.last 39 := by
      have : (List.finRange maxProc).getLast? = some (Fin.last 39) := by decide
      rw [this] at ht
      simpa using ht.symm
    subst hlast
    have hsucc : (Fin.last 39 :: List.finRange maxProc).IsChain (fun a b : PcbPtr => b = a + 1) := by
      decide
    refine hsucc.imp ?_
    rintro a _ rfl
    exact h a
  exact ⟨IsQueue.of_cycle hcyc, fun _ => hcyc⟩

end Pandos
