/-
# `Pandos.ProcQueues` — many process queues in one heap

The queues of the nucleus share the link fields of the PCBs: the ready queue
and the queue of each active semaphore, or whatever other collection `ι`.
Here they are a `QHeap`, and `Holds` says which lists its rings are.  The four
functions of `pcb.c` are queue operations on one of the lists, whatever the
others hold, as long as only a PCB that is in none of them is inserted.
-/
import Pandos.Lib.Simulation
import Pandos.ProcQ

namespace Pandos

open Intrusive Simulation

/-- The link fields, and a tail pointer for each queue. -/
structure QHeap (ι : Type) where
  links : QLinks
  tail : ι → Option PcbPtr

variable {ι : Type}

/-- The queues are disjoint rings, each with its tail pointer. -/
structure QHeap.Holds (s : QHeap ι) (qs : ι → List PcbPtr) : Prop where
  ring : ∀ i, IsRing s.links (s.tail i) (qs i)
  apart : ∀ i j, i ≠ j → (qs i).Disjoint (qs j)

/-- A call on the queue `i`. -/
inductive QCall (ι : Type) where
  | insert (i : ι) (p : PcbPtr)
  | remove (i : ι)
  | out (i : ι) (p : PcbPtr)
  | head (i : ι)

variable [DecidableEq ι]

/-- The heap after a function has written the links and the tail pointer of `i`. -/
def QHeap.set (s : QHeap ι) (i : ι) (L : QLinks) (tp : Option PcbPtr) : QHeap ι :=
  ⟨L, Function.update s.tail i tp⟩

namespace QCall

def exec (s : QHeap ι) : QCall ι → Option (Option PcbPtr × QHeap ι)
  | .insert i p => do
      let (L, tp) ← insertProcQ s.links (s.tail i) p
      return (none, s.set i L tp)
  | .remove i => do
      let (r, L, tp) ← removeProcQ s.links (s.tail i)
      return (r, s.set i L tp)
  | .out i p => do
      let (r, L, tp) ← outProcQ s.links (s.tail i) p
      return (r, s.set i L tp)
  | .head i => some (headProcQ s.links (s.tail i), s)

/-- What the call is for. -/
def spec (qs : ι → List PcbPtr) : QCall ι → Option PcbPtr × (ι → List PcbPtr)
  | .insert i p => (none, Function.update qs i (qs i ++ [p]))
  | .remove i => ((qs i).head?, Function.update qs i (qs i).tail)
  | .out i p => (if p ∈ qs i then some p else none, Function.update qs i ((qs i).erase p))
  | .head i => ((qs i).head?, qs)

/-- Only a PCB that is in no queue is inserted. -/
def Pre (qs : ι → List PcbPtr) : QCall ι → Prop
  | .insert _ p => ∀ j, p ∉ qs j
  | .remove _ | .out _ _ | .head _ => True

instance [Fintype ι] (qs : ι → List PcbPtr) : ∀ c, Decidable (Pre qs c)
  | .insert _ _ => inferInstanceAs (Decidable (∀ _, _))
  | .remove _ | .out _ _ | .head _ => inferInstanceAs (Decidable True)

end QCall

namespace QHeap.Holds

variable {s : QHeap ι} {qs : ι → List PcbPtr} {i : ι} {L : QLinks} {tp : Option PcbPtr}
  {l : List PcbPtr}

/-- One queue changes, within itself or by PCBs that were in none. -/
theorem set (h : s.Holds qs) (hring : IsRing L tp l)
    (hL : ∀ j, j ≠ i → s.links.AgreeOn L (qs j))
    (hl : ∀ x ∈ l, x ∈ qs i ∨ ∀ j, x ∉ qs j) : (s.set i L tp).Holds (Function.update qs i l) := by
  have hdis : ∀ j, j ≠ i → l.Disjoint (qs j) := by
    intro j hj x hx hxj
    rcases hl x hx with hxi | hx
    · exact h.apart i j hj.symm hxi hxj
    · exact hx j hxj
  constructor
  · intro j
    by_cases hj : j = i
    · subst hj
      simpa [QHeap.set] using hring
    · simpa [QHeap.set, hj] using (h.ring j).congr (hL j hj)
  · intro j k hjk
    by_cases hj : j = i
    · subst hj
      rw [Function.update_self, Function.update_of_ne hjk.symm]
      exact hdis k hjk.symm
    · by_cases hk : k = i
      · subst hk
        rw [Function.update_self, Function.update_of_ne hj]
        exact (hdis j hj).symm
      · rw [Function.update_of_ne hj, Function.update_of_ne hk]
        exact h.apart j k hjk

/-- A queue that is written back as it was. -/
theorem set_same (h : s.Holds qs) (i : ι) : (s.set i s.links (s.tail i)).Holds qs := by
  have := h.set (h.ring i) (fun _ _ _ _ => ⟨rfl, rfl⟩) fun x hx => Or.inl hx
  rwa [Function.update_eq_self] at this

end QHeap.Holds

/-- One call, on any of the queues. -/
theorem QCall.exec_spec {s : QHeap ι} {qs : ι → List PcbPtr} (h : s.Holds qs) (c : QCall ι)
    (hc : QCall.Pre qs c) : ∃ s', QCall.exec s c = some ((QCall.spec qs c).1, s') ∧
      s'.Holds (QCall.spec qs c).2 := by
  cases c with
  | insert i p =>
      obtain ⟨L, hins, hring, hL⟩ := insertProcQ_spec (h.ring i) (hc i)
      refine ⟨s.set i L (some p), by simp [exec, spec, hins], h.set hring ?_ fun x hx => ?_⟩
      · exact fun j hj => hL _ (h.apart j i hj) (hc j)
      · rcases List.mem_append.mp hx with hx | hx
        · exact .inl hx
        · exact .inr (List.mem_singleton.mp hx ▸ hc)
  | remove i =>
      cases hq : qs i with
      | nil =>
          have htail : s.tail i = none := (h.ring i).eq_nil_iff.mpr hq
          have hself : Function.update qs i [] = qs := Function.update_eq_self_iff.mpr hq.symm
          refine ⟨s.set i s.links (s.tail i), ?_, ?_⟩
          · simp [exec, spec, hq, htail, removeProcQ_nil]
          · simpa [spec, hq, hself] using h.set_same i
      | cons p l =>
          obtain ⟨L, tp, hrem, hring, hL⟩ := removeProcQ_spec (hq ▸ h.ring i)
          refine ⟨s.set i L tp, by simp [exec, spec, hq, hrem], ?_⟩
          simp only [spec, hq, List.tail_cons]
          refine h.set hring (fun j hj => hL _ (hq ▸ h.apart j i hj)) fun x hx => .inl ?_
          rw [hq]
          exact List.mem_cons_of_mem _ hx
  | out i p =>
      by_cases hp : p ∈ qs i
      · obtain ⟨L, tp, hout, hring, hL⟩ := outProcQ_spec (h.ring i) hp
        refine ⟨s.set i L tp, by simp [exec, spec, hp, hout], ?_⟩
        exact h.set hring (fun j hj => hL _ (h.apart j i hj)) fun x hx =>
          .inl (List.mem_of_mem_erase hx)
      · have hout := outProcQ_not_mem (h.ring i) hp
        refine ⟨s.set i s.links (s.tail i), by simp [exec, spec, hp, hout], ?_⟩
        simpa [spec, List.erase_of_not_mem hp] using h.set_same i
  | head i =>
      refine ⟨s, ?_, h⟩
      cases htail : s.tail i with
      | none =>
          have hq := (h.ring i).eq_nil_iff.mp htail
          simp [exec, spec, htail, headProcQ, hq]
      | some t =>
          obtain ⟨-, -, hhead⟩ := (htail ▸ h.ring i).of_some
          simp [exec, spec, htail, headProcQ, hhead]

/-- Whatever the interleaving, each ring is a first-in first-out queue. -/
theorem procQs_refine_queues {s : QHeap ι} {qs : ι → List PcbPtr} (h : s.Holds qs)
    {cs : List (QCall ι)} (hcs : Allowed QCall.Pre QCall.spec qs cs) :
    ∃ s', calls QCall.exec s cs = some ((specs QCall.spec qs cs).1, s') ∧
      s'.Holds (specs QCall.spec qs cs).2 :=
  calls_refine (fun c => fun h hc => QCall.exec_spec h c hc) cs h hcs

/-- Two queues, and calls for a first, a middle, a last and an only element,
and for one that is in the other queue. -/
def twoQueues : List (QCall Bool) :=
  (List.range 5).map (fun i => .insert false (Fin.ofNat maxProc i)) ++
    [.insert true 7, .out false 2, .out false 7, .head true, .out false 4, .remove false,
      .out true 7, .head true, .insert true 0, .remove false, .head false]

theorem procQs_refine_queues_two : ∃ s',
    calls QCall.exec ⟨⟨fun _ => none, fun _ => none⟩, fun _ => mkEmptyProcQ⟩ twoQueues =
      some ((specs QCall.spec (fun _ => []) twoQueues).1, s') ∧
    (specs QCall.spec (fun _ => []) twoQueues).1.drop 6 =
      [some 2, none, some 7, some 4, some 0, some 7, none, none, some 1, some 3] ∧
    s'.Holds fun i => if i then [0] else [3] := by
  have hempty : QHeap.Holds (ι := Bool) ⟨⟨fun _ => none, fun _ => none⟩, fun _ => mkEmptyProcQ⟩
      fun _ => [] := ⟨fun _ => .nil _, fun _ _ _ => List.disjoint_nil_left _⟩
  obtain ⟨s', hs', hholds⟩ :=
    procQs_refine_queues hempty
      (show Allowed QCall.Pre QCall.spec (fun _ => []) twoQueues by decide +kernel)
  have hq : (specs QCall.spec (fun _ => []) twoQueues).2 = fun i => if i then [0] else [3] := by
    decide +kernel
  exact ⟨s', hs', by decide +kernel, hq ▸ hholds⟩

end Pandos
