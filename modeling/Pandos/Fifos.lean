/-
# `Pandos.Fifos` — the queues as lists

What the pointer structures are for: the free PCBs, the ready queue and one
queue per semaphore, each a list of PCBs in the order of service.

`Fifos.Wf` says that no PCB stands in two of them and that `p_semAdd` names
the semaphore a PCB is blocked on.  The operations fail on calls that would
break it, such as inserting a PCB that stands in some queue already.

`QRep q f` relates the pointer structures to the lists, and every operation
of `Queues` refines the one of `Fifos` (`Refines`): where the lists do not
fail, the pointer code returns, with the same result and the lists' effect.

A PCB that is freed while it is free is the one thing that goes wrong and is
still described: `dup` records it, the list is what remains reachable.
-/
import Pandos.Lib.Simulation
import Pandos.Nucleus

namespace Pandos

open Intrusive Simulation

structure Fifos where
  free : List PcbPtr
  dup : Bool
  ready : List PcbPtr
  blocked : Word → List PcbPtr
  pSemAdd : PcbPtr → Word

namespace Fifos

/-- `p` stands in no queue. -/
def Detached (f : Fifos) (p : PcbPtr) : Prop := p ∉ f.free ∧ p ∉ f.ready ∧ f.pSemAdd p = 0

instance (f : Fifos) (p : PcbPtr) : Decidable (f.Detached p) :=
  inferInstanceAs (Decidable (_ ∧ _))

/-! ## Operations -/

def allocPcbRing (f : Fifos) : Option PcbPtr × Fifos :=
  match f.free with
  | [] => (none, f)
  | p :: l => (some p, { f with free := l })

/-- Behind the last free PCB; what followed an earlier place of `p` is lost. -/
def freePcbRing (f : Fifos) (p : PcbPtr) : Fifos :=
  { f with free := f.free.takeWhile (· ≠ p) ++ [p], dup := f.dup || decide (p ∈ f.free) }

def insertReady (f : Fifos) (p : PcbPtr) : Fifos := { f with ready := f.ready ++ [p] }

def removeReady (f : Fifos) : Option PcbPtr × Fifos :=
  match f.ready with
  | [] => (none, f)
  | p :: l => (some p, { f with ready := l })

def outReady (f : Fifos) (p : PcbPtr) : Option PcbPtr × Fifos :=
  (if p ∈ f.ready then some p else none, { f with ready := f.ready.erase p })

def insertBlocked (f : Fifos) (s : Word) (p : PcbPtr) : Fifos :=
  { f with
    blocked := Function.update f.blocked s (f.blocked s ++ [p])
    pSemAdd := Function.update f.pSemAdd p s }

def removeBlocked (f : Fifos) (s : Word) : Option PcbPtr × Fifos :=
  match f.blocked s with
  | [] => (none, f)
  | p :: l => (some p, { f with
      blocked := Function.update f.blocked s l
      pSemAdd := Function.update f.pSemAdd p 0 })

def outBlocked (f : Fifos) (p : PcbPtr) : Fifos :=
  { f with
    blocked := Function.update f.blocked (f.pSemAdd p) ((f.blocked (f.pSemAdd p)).erase p)
    pSemAdd := Function.update f.pSemAdd p 0 }

instance : QueueOps Fifos where
  pSemAdd := pSemAdd
  allocPcbRing f := some f.allocPcbRing
  freePcbRing f p := if p ∉ f.ready ∧ f.pSemAdd p = 0 then some (f.freePcbRing p) else none
  insertReady f p := if f.Detached p then some (f.insertReady p) else none
  removeReady f := some f.removeReady
  outReady f p := some (f.outReady p)
  insertBlocked f s p :=
    if f.Detached p ∧ s ≠ 0 ∧ s ≠ maxAdd then some (false, f.insertBlocked s p) else none
  removeBlocked f s := if s ≠ maxAdd then some (f.removeBlocked s) else none
  outBlocked f p := if f.pSemAdd p ≠ 0 then some (some p, f.outBlocked p) else none

/-! Where the operations do not fail. -/

section

variable {f : Fifos} {p : PcbPtr} {s : Word}

theorem freePcbRing_eq (hr : p ∉ f.ready) (hp : f.pSemAdd p = 0) :
    QueueOps.freePcbRing f p = some (f.freePcbRing p) := if_pos ⟨hr, hp⟩

theorem insertReady_eq (hp : f.Detached p) :
    QueueOps.insertReady f p = some (f.insertReady p) := if_pos hp

theorem insertBlocked_eq (hp : f.Detached p) (hs : s ≠ 0) (hmax : s ≠ maxAdd) :
    QueueOps.insertBlocked f s p = some (false, f.insertBlocked s p) := if_pos ⟨hp, hs, hmax⟩

theorem removeBlocked_eq (hmax : s ≠ maxAdd) :
    QueueOps.removeBlocked f s = some (f.removeBlocked s) := if_pos hmax

theorem outBlocked_eq (hp : f.pSemAdd p ≠ 0) :
    QueueOps.outBlocked f p = some (some p, f.outBlocked p) := if_pos hp

end

/-! ## Well-formedness -/

structure Wf (f : Fifos) : Prop where
  free_nodup : f.free.Nodup
  ready_nodup : f.ready.Nodup
  blocked_nodup : ∀ s, (f.blocked s).Nodup
  disjoint : f.free.Disjoint f.ready
  mem_blocked : ∀ p s, p ∈ f.blocked s ↔ f.pSemAdd p = s ∧ s ≠ 0
  pSemAdd_free : ∀ p ∈ f.free, f.pSemAdd p = 0
  pSemAdd_ready : ∀ p ∈ f.ready, f.pSemAdd p = 0
  ne_maxAdd : ∀ p, f.pSemAdd p ≠ maxAdd

namespace Wf

variable {f : Fifos} (h : f.Wf)
include h

theorem apart : Apart f.blocked := fun s s' hne p hs hs' =>
  hne (((h.mem_blocked p s).mp hs).1.symm.trans ((h.mem_blocked p s').mp hs').1)

theorem not_blocked {p : PcbPtr} (hp : f.pSemAdd p = 0) (s : Word) : p ∉ f.blocked s :=
  fun hs => ((h.mem_blocked p s).mp hs).2 (((h.mem_blocked p s).mp hs).1.symm.trans hp)

theorem free_disjoint_blocked (s : Word) : f.free.Disjoint (f.blocked s) := fun p hp =>
  h.not_blocked (h.pSemAdd_free p hp) s

theorem ready_disjoint_blocked (s : Word) : f.ready.Disjoint (f.blocked s) := fun p hp =>
  h.not_blocked (h.pSemAdd_ready p hp) s

theorem mem_own {p : PcbPtr} (hp : f.pSemAdd p ≠ 0) : p ∈ f.blocked (f.pSemAdd p) :=
  (h.mem_blocked p _).mpr ⟨rfl, hp⟩

theorem allocPcbRing : f.allocPcbRing.2.Wf := by
  unfold Fifos.allocPcbRing
  split
  · exact h
  next p l hf =>
    have hd := h.disjoint
    have hz := h.pSemAdd_free
    have hn := h.free_nodup
    rw [hf] at hd hz hn
    exact { h with
      free_nodup := (List.nodup_cons.mp hn).2
      disjoint := fun x hx => hd (List.mem_cons_of_mem _ hx)
      pSemAdd_free := fun x hx => hz x (List.mem_cons_of_mem _ hx) }

theorem freePcbRing {p : PcbPtr} (hr : p ∉ f.ready) (hp : f.pSemAdd p = 0) :
    (f.freePcbRing p).Wf := by
  have hmem : ∀ x ∈ f.free.takeWhile (· ≠ p) ++ [p], x ∈ f.free ∨ x = p := by
    intro x hx
    rcases List.mem_append.mp hx with hx | hx
    · exact .inl (List.takeWhile_subset _ hx)
    · exact .inr (by simpa using hx)
  exact { h with
    free_nodup := by
      refine List.nodup_append.mpr ⟨h.free_nodup.sublist (List.takeWhile_sublist _), by simp, ?_⟩
      intro a ha b hb e
      obtain rfl : b = p := by simpa using hb
      simpa [e] using List.mem_takeWhile_imp ha
    disjoint := by
      intro x hx hxr
      rcases hmem x hx with hx | rfl
      · exact h.disjoint hx hxr
      · exact hr hxr
    pSemAdd_free := by
      intro x hx
      rcases hmem x hx with hx | rfl
      · exact h.pSemAdd_free x hx
      · exact hp }

theorem insertReady {p : PcbPtr} (hp : f.Detached p) : (f.insertReady p).Wf := by
  obtain ⟨hpf, hpr, hps⟩ := hp
  exact { h with
    ready_nodup := List.nodup_append.mpr ⟨h.ready_nodup, by simp, fun a ha b hb e => by
      obtain rfl : b = p := by simpa using hb
      exact hpr (e ▸ ha)⟩
    disjoint := by
      intro x hx hxr
      rcases List.mem_append.mp hxr with hxr | hxr
      · exact h.disjoint hx hxr
      · obtain rfl : x = p := by simpa using hxr
        exact hpf hx
    pSemAdd_ready := by
      intro x hx
      rcases List.mem_append.mp hx with hx | hx
      · exact h.pSemAdd_ready x hx
      · obtain rfl : x = p := by simpa using hx
        exact hps }

theorem removeReady : f.removeReady.2.Wf := by
  unfold Fifos.removeReady
  split
  · exact h
  next p l hf =>
    have hd := h.disjoint
    have hz := h.pSemAdd_ready
    have hn := h.ready_nodup
    rw [hf] at hd hz hn
    exact { h with
      ready_nodup := (List.nodup_cons.mp hn).2
      disjoint := fun x hx hl => hd hx (List.mem_cons_of_mem _ hl)
      pSemAdd_ready := fun x hx => hz x (List.mem_cons_of_mem _ hx) }

theorem outReady (p : PcbPtr) : (f.outReady p).2.Wf :=
  { h with
    ready_nodup := h.ready_nodup.erase p
    disjoint := fun _ hx hr => h.disjoint hx (List.mem_of_mem_erase hr)
    pSemAdd_ready := fun x hx => h.pSemAdd_ready x (List.mem_of_mem_erase hx) }

theorem insertBlocked {p : PcbPtr} {s : Word} (hp : f.Detached p) (hs : s ≠ 0)
    (hmax : s ≠ maxAdd) : (f.insertBlocked s p).Wf := by
  obtain ⟨hpf, hpr, hps⟩ := hp
  have hne : ∀ x, x ≠ p → Function.update f.pSemAdd p s x = f.pSemAdd x := fun x hx =>
    Function.update_of_ne hx _ _
  exact { h with
    blocked_nodup := by
      intro s'
      show (Function.update f.blocked s (f.blocked s ++ [p]) s').Nodup
      by_cases e : s' = s
      · subst e
        rw [Function.update_self]
        refine List.nodup_append.mpr ⟨h.blocked_nodup s', by simp, fun a ha b hb e => ?_⟩
        obtain rfl : b = p := by simpa using hb
        exact h.not_blocked hps s' (e ▸ ha)
      · rw [Function.update_of_ne e]
        exact h.blocked_nodup s'
    mem_blocked := by
      intro x s'
      show x ∈ Function.update f.blocked s (f.blocked s ++ [p]) s' ↔
        Function.update f.pSemAdd p s x = s' ∧ s' ≠ 0
      by_cases hx : x = p
      · subst hx
        rw [Function.update_self]
        by_cases e : s' = s
        · subst e
          rw [Function.update_self]
          exact iff_of_true (by simp) ⟨rfl, hs⟩
        · rw [Function.update_of_ne e]
          have := h.not_blocked hps s'
          simp [this, Ne.symm e]
      · rw [hne x hx]
        by_cases e : s' = s
        · subst e
          simpa [hx] using h.mem_blocked x s'
        · rw [Function.update_of_ne e]
          exact h.mem_blocked x s'
    pSemAdd_free := fun x hx => (hne x fun e => hpf (e ▸ hx)).trans (h.pSemAdd_free x hx)
    pSemAdd_ready := fun x hx => (hne x fun e => hpr (e ▸ hx)).trans (h.pSemAdd_ready x hx)
    ne_maxAdd := by
      intro x
      show Function.update f.pSemAdd p s x ≠ maxAdd
      by_cases hx : x = p
      · subst hx; simpa using hmax
      · rw [hne x hx]; exact h.ne_maxAdd x }

/-- A blocked PCB leaves its queue. -/
theorem unblock {p : PcbPtr} {s : Word} (hp : p ∈ f.blocked s) : Wf { f with
    blocked := Function.update f.blocked s ((f.blocked s).erase p)
    pSemAdd := Function.update f.pSemAdd p 0 } := by
  obtain ⟨hps, hs⟩ := (h.mem_blocked p s).mp hp
  have hp0 : f.pSemAdd p ≠ 0 := hps ▸ hs
  have hne : ∀ x, x ≠ p → Function.update f.pSemAdd p 0 x = f.pSemAdd x := fun x hx =>
    Function.update_of_ne hx _ _
  exact { h with
    blocked_nodup := by
      intro s'
      show (Function.update f.blocked s ((f.blocked s).erase p) s').Nodup
      by_cases e : s' = s
      · subst e
        rw [Function.update_self]
        exact (h.blocked_nodup s').erase p
      · rw [Function.update_of_ne e]
        exact h.blocked_nodup s'
    mem_blocked := by
      intro x s'
      show x ∈ Function.update f.blocked s ((f.blocked s).erase p) s' ↔
        Function.update f.pSemAdd p 0 x = s' ∧ s' ≠ 0
      by_cases hx : x = p
      · subst hx
        rw [Function.update_self]
        by_cases e : s' = s
        · subst e
          rw [Function.update_self]
          simp only [(h.blocked_nodup s').not_mem_erase, false_iff]
          exact fun hh => hs hh.1.symm
        · rw [Function.update_of_ne e]
          constructor
          · intro hx
            exact absurd (hps.symm.trans ((h.mem_blocked x s').mp hx).1) (Ne.symm e)
          · intro hh
            exact absurd hh.1.symm hh.2
      · rw [hne x hx, ← h.mem_blocked x s']
        by_cases e : s' = s
        · subst e
          rw [Function.update_self, List.mem_erase_of_ne hx]
        · rw [Function.update_of_ne e]
    pSemAdd_free := fun x hx =>
      (hne x fun e => hp0 (e ▸ h.pSemAdd_free x hx)).trans (h.pSemAdd_free x hx)
    pSemAdd_ready := fun x hx =>
      (hne x fun e => hp0 (e ▸ h.pSemAdd_ready x hx)).trans (h.pSemAdd_ready x hx)
    ne_maxAdd := by
      intro x
      show Function.update f.pSemAdd p 0 x ≠ maxAdd
      by_cases hx : x = p
      · subst hx; simp
      · rw [hne x hx]; exact h.ne_maxAdd x }

theorem outBlocked {p : PcbPtr} (hp : f.pSemAdd p ≠ 0) : (f.outBlocked p).Wf :=
  h.unblock (h.mem_own hp)

theorem removeBlocked (s : Word) : (f.removeBlocked s).2.Wf := by
  unfold Fifos.removeBlocked
  split
  · exact h
  next p l hf =>
    have := h.unblock (s := s) (p := p) (by simp [hf])
    simpa [hf] using this

end Wf

end Fifos

/-! ## Representation -/

/-- The pointer structures `q` hold the lists `f`. -/
structure QRep (q : Queues) (f : Fifos) : Prop where
  wf : f.Wf
  pSemAdd : q.pSemAdd = f.pSemAdd
  free : FreeRing q f.free f.dup
  ready : IsRing q.links q.readyQueue f.ready
  asl : ∃ act unused, AslRep q f.blocked act unused

namespace QRep

variable {q : Queues} {f : Fifos}

/-- Results of the two sides correspond. -/
def Same {α : Type} (x : α × Queues) (y : α × Fifos) : Prop := x.1 = y.1 ∧ QRep x.2 y.2

theorem allocPcbRing (h : QRep q f) :
    Refines Same (QueueOps.allocPcbRing q) (QueueOps.allocPcbRing f) := by
  rintro _ ⟨⟩
  obtain ⟨act, unused, hasl⟩ := h.asl
  cases hf : f.free with
  | nil =>
      have hfree := hf ▸ h.free
      refine ⟨(none, q), hfree.allocPcbRing_nil, ?_⟩
      rw [Fifos.allocPcbRing, hf]
      exact ⟨rfl, h⟩
  | cons p l =>
      have hfree := hf ▸ h.free
      obtain ⟨q', hq', hfree', hfr⟩ := hfree.allocPcbRing_spec
      have hwf := h.wf.allocPcbRing
      rw [Fifos.allocPcbRing, hf] at hwf ⊢
      refine ⟨(some p, q'), hq', rfl, hwf, hfr.pSemAdd.trans h.pSemAdd, hfree', ?_,
        act, unused, hasl.congr hfr.sNext hfr.sSemAdd hfr.sProcQ hfr.semdFreeH hfr.semdH ?_⟩
      · rw [hfr.readyQueue]
        exact h.ready.congr (hfr.links _ (hf ▸ h.wf.disjoint.symm))
      · exact fun s => hfr.links _ (hf ▸ (h.wf.free_disjoint_blocked s).symm)

theorem freePcbRing (h : QRep q f) (p : PcbPtr) :
    Refines QRep (QueueOps.freePcbRing q p) (QueueOps.freePcbRing f p) := by
  intro f' hf'
  obtain ⟨⟨hpr, hps⟩, ⟨⟩⟩ := Option.ite_none_right_eq_some.mp hf'
  obtain ⟨act, unused, hasl⟩ := h.asl
  obtain ⟨q', hq', hfree', hfr⟩ := h.free.freePcbRing_spec p
  refine ⟨q', hq', h.wf.freePcbRing hpr hps, hfr.pSemAdd.trans h.pSemAdd, hfree', ?_,
    act, unused, hasl.congr hfr.sNext hfr.sSemAdd hfr.sProcQ hfr.semdFreeH hfr.semdH ?_⟩
  · rw [hfr.readyQueue]
    refine h.ready.congr (hfr.links _ ?_)
    exact List.disjoint_cons_right.mpr ⟨hpr, h.wf.disjoint.symm⟩
  · refine fun s => hfr.links _ ?_
    exact List.disjoint_cons_right.mpr
      ⟨h.wf.not_blocked hps s, (h.wf.free_disjoint_blocked s).symm⟩

/-- A change of the ready queue that relinks ready PCBs, and `touched`. -/
theorem set_ready (h : QRep q f) (touched : List PcbPtr) {L : QLinks} {tp : Option PcbPtr}
    {l : List PcbPtr} (hwf : Fifos.Wf { f with ready := l }) (hring : IsRing L tp l)
    (hL : ∀ m : List PcbPtr, m.Disjoint f.ready → m.Disjoint touched → q.links.AgreeOn L m)
    (hfree : f.free.Disjoint touched) (hbl : ∀ s, (f.blocked s).Disjoint touched) :
    QRep { q with links := L, readyQueue := tp } { f with ready := l } := by
  obtain ⟨act, unused, hasl⟩ := h.asl
  refine ⟨hwf, h.pSemAdd, h.free.congr rfl (hL _ h.wf.disjoint hfree), hring, act, unused,
    hasl.congr rfl rfl rfl rfl rfl fun s => hL _ ?_ (hbl s)⟩
  exact (h.wf.ready_disjoint_blocked s).symm

theorem insertReady (h : QRep q f) (p : PcbPtr) :
    Refines QRep (QueueOps.insertReady q p) (QueueOps.insertReady f p) := by
  intro f' hf'
  obtain ⟨hp, ⟨⟩⟩ := Option.ite_none_right_eq_some.mp hf'
  obtain ⟨L, hins, hring, hL⟩ := insertProcQ_spec h.ready hp.2.1
  refine ⟨{ q with links := L, readyQueue := some p }, ?_,
    h.set_ready [p] (h.wf.insertReady hp) hring ?_ ?_ ?_⟩
  · simp [QueueOps.insertReady, hins]
  · exact fun m hm hp => hL m hm (by simpa using hp)
  · simpa using hp.1
  · exact fun s => by simpa using h.wf.not_blocked hp.2.2 s

theorem removeReady (h : QRep q f) :
    Refines Same (QueueOps.removeReady q) (QueueOps.removeReady f) := by
  rintro _ ⟨⟩
  cases hf : f.ready with
  | nil =>
      have hr : q.readyQueue = none := h.ready.eq_nil_iff.mpr hf
      refine ⟨(none, q), ?_, ?_⟩
      · simp only [QueueOps.removeReady, hr, removeProcQ_nil]
        rw [← hr]
        rfl
      · rw [Fifos.removeReady, hf]
        exact ⟨rfl, h⟩
  | cons p l =>
      obtain ⟨L, tp, hrem, hring, hL⟩ := removeProcQ_spec (hf ▸ h.ready)
      have hwf := h.wf.removeReady
      rw [Fifos.removeReady, hf] at hwf ⊢
      refine ⟨(some p, { q with links := L, readyQueue := tp }),
        by simp [QueueOps.removeReady, hrem], rfl,
        h.set_ready [] hwf hring ?_ (by simp) (by simp)⟩
      exact fun m hm _ => hL m (hf ▸ hm)

theorem outReady (h : QRep q f) (p : PcbPtr) :
    Refines Same (QueueOps.outReady q p) (QueueOps.outReady f p) := by
  rintro _ ⟨⟩
  have hwf := h.wf.outReady p
  by_cases hp : p ∈ f.ready
  · obtain ⟨L, tp, hout, hring, hL⟩ := outProcQ_spec h.ready hp
    refine ⟨(some p, { q with links := L, readyQueue := tp }),
      by simp [QueueOps.outReady, hout], ?_, ?_⟩
    · simp [Fifos.outReady, hp]
    · exact h.set_ready [] hwf hring (fun m hm _ => hL m hm) (by simp) (by simp)
  · refine ⟨(none, q), by simp [QueueOps.outReady, outProcQ_not_mem h.ready hp], ?_, ?_⟩
    · simp [Fifos.outReady, hp]
    · simpa [Fifos.outReady, List.erase_of_not_mem hp] using h

theorem insertBlocked (h : QRep q f) (s : Word) (p : PcbPtr) :
    Refines Same (QueueOps.insertBlocked q s p) (QueueOps.insertBlocked f s p) := by
  intro f' hf'
  obtain ⟨⟨hp, hs, hmax⟩, ⟨⟩⟩ := Option.ite_none_right_eq_some.mp hf'
  obtain ⟨act, unused, hasl⟩ := h.asl
  have hpb := h.wf.not_blocked hp.2.2
  obtain ⟨q', act', unused', hq', hasl', hps', hfr⟩ :=
    hasl.insertBlocked_spec h.wf.apart hs hmax hpb fun _ => hasl.room h.wf.apart hpb
  have hdis : ∀ m : List PcbPtr, p ∉ m → (∀ s, m.Disjoint (f.blocked s)) →
      m.Disjoint (p :: f.blocked s) := fun m hpm hm =>
    List.disjoint_cons_right.mpr ⟨hpm, hm s⟩
  refine ⟨(false, q'), hq', rfl, h.wf.insertBlocked hp hs hmax, ?_, ?_, ?_, act', unused', hasl'⟩
  · rw [hps', h.pSemAdd]
    rfl
  · exact h.free.congr hfr.pcbFreeH (hfr.links _ (hdis _ hp.1 h.wf.free_disjoint_blocked))
  · rw [hfr.readyQueue]
    exact h.ready.congr (hfr.links _ (hdis _ hp.2.1 h.wf.ready_disjoint_blocked))

theorem removeBlocked (h : QRep q f) (s : Word) :
    Refines Same (QueueOps.removeBlocked q s) (QueueOps.removeBlocked f s) := by
  intro f' hf'
  obtain ⟨hmax, ⟨⟩⟩ := Option.ite_none_right_eq_some.mp hf'
  obtain ⟨act, unused, hasl⟩ := h.asl
  cases hb : f.blocked s with
  | nil =>
      refine ⟨(none, q), hasl.removeBlocked_nil hmax hb, ?_⟩
      rw [Fifos.removeBlocked, hb]
      exact ⟨rfl, h⟩
  | cons p l =>
      obtain ⟨q', act', unused', hq', hasl', hps', hfr, -⟩ :=
        hasl.removeBlocked_spec h.wf.apart hb
      have hwf := h.wf.removeBlocked s
      rw [Fifos.removeBlocked, hb] at hwf ⊢
      refine ⟨(some p, q'), hq', rfl, hwf, ?_, ?_, ?_, act', unused', hasl'⟩
      · rw [hps', h.pSemAdd]
      · exact h.free.congr hfr.pcbFreeH
          (hfr.links _ (hb ▸ h.wf.free_disjoint_blocked s))
      · rw [hfr.readyQueue]
        exact h.ready.congr (hfr.links _ (hb ▸ h.wf.ready_disjoint_blocked s))

theorem outBlocked (h : QRep q f) (p : PcbPtr) :
    Refines Same (QueueOps.outBlocked q p) (QueueOps.outBlocked f p) := by
  intro f' hf'
  obtain ⟨hp, ⟨⟩⟩ := Option.ite_none_right_eq_some.mp hf'
  obtain ⟨act, unused, hasl⟩ := h.asl
  have hmem := h.wf.mem_own hp
  rw [← h.pSemAdd] at hmem
  obtain ⟨q', act', unused', hq', hasl', hps', hfr, -⟩ := hasl.outBlocked_spec h.wf.apart hmem
  rw [h.pSemAdd] at hasl' hps' hfr
  refine ⟨(some p, q'), hq', rfl, h.wf.outBlocked hp, hps', ?_, ?_, act', unused', hasl'⟩
  · exact h.free.congr hfr.pcbFreeH (hfr.links _ (h.wf.free_disjoint_blocked _))
  · rw [hfr.readyQueue]
    exact h.ready.congr (hfr.links _ (h.wf.ready_disjoint_blocked _))

/-- After `initPcbs` and `initASL` every PCB is free. -/
theorem init (q : Queues) (hps : q.pSemAdd = fun _ => 0) :
    QRep { initASL (initPcbs q) with readyQueue := mkEmptyProcQ }
      ⟨List.finRange maxProc, false, [], fun _ => [], fun _ => 0⟩ := by
  obtain ⟨⟨unused, hasl⟩, hlinks, hpsem, hfree, -⟩ := initASL_spec (initPcbs q)
  refine ⟨⟨List.nodup_finRange _, List.nodup_nil, fun _ => List.nodup_nil, by simp, ?_, by simp,
    by simp, fun _ => by simp⟩, hpsem.trans hps, ?_, .nil _, [], unused, ?_⟩
  · intro p s
    simp only [List.not_mem_nil, false_iff]
    exact fun h => h.2 h.1.symm
  · refine (initPcbs_spec q).congr hfree ?_
    intro x _
    show (initASL (initPcbs q)).links.next x = _ ∧ (initASL (initPcbs q)).links.prev x = _
    rw [hlinks]
    exact ⟨rfl, rfl⟩
  · exact hasl.congr rfl rfl rfl rfl rfl fun _ _ _ => ⟨rfl, rfl⟩

end QRep

end Pandos
