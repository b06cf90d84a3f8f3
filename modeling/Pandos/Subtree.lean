/-
# `Pandos.Subtree` — one termination

What `terminate_Process_rec` does to a state that is `Consistent`: the forest
is well-formed, the free ring, the ready queue and the active semaphore list
hold what they seem to hold, and `p_semAdd` names the queue a PCB is in.

The walk takes the tree apart while it goes through it.  It reads and writes
the first child only of the PCBs it gives up (`treeWalk_setChild`), so that
neither the lists of other processes matter to it nor what `outChild` does to
the list of the parent.  What it gives up is the process and all below it,
once each (`treeWalk_subtree`); the queues lose these and nobody else.
-/
import Pandos.AslMap
import Pandos.ReadyQueue
import Pandos.Siblings

namespace Pandos

open Intrusive Semaphore Simulation

/-! ## Well-formed trees have an age -/

namespace Tree

variable {t t' : Tree} {p q x y : PcbPtr}

open Classical in
/-- The number of PCBs above `x`. -/
noncomputable def depth (t : Tree) (x : PcbPtr) : Nat := (Finset.univ.filter (t.Below x ·)).card

/-- The place of `x` among its siblings. -/
def rank (t : Tree) (x : PcbPtr) : Nat :=
  match t.pPrnt x with
  | none => 0
  | some q => (t.children q).idxOf x

/-- PCBs get younger downwards, and along the siblings. -/
noncomputable def age (t : Tree) (x : PcbPtr) : Nat := t.depth x * (maxProc + 1) + t.rank x

theorem below_iff (hx : t.pPrnt x = some q) : t.Below x y ↔ q = y ∨ t.Below q y := by
  constructor
  · intro h
    rcases Relation.TransGen.head'_iff.mp h with ⟨z, hz, h⟩
    obtain rfl : q = z := Option.some.inj (hx.symm.trans hz)
    rcases Relation.reflTransGen_iff_eq_or_transGen.mp h with e | h
    · exact .inl e.symm
    · exact .inr h
  · rintro (rfl | h)
    · exact .single hx
    · exact .head hx h

namespace WellFormed

theorem depth_lt (h : t.WellFormed) (hx : t.pPrnt x = some q) : t.depth q < t.depth x := by
  refine Finset.card_lt_card ((Finset.ssubset_iff_of_subset ?_).mpr ⟨q, ?_, ?_⟩)
  · intro y hy
    simp only [Finset.mem_filter, Finset.mem_univ, true_and] at hy ⊢
    exact (below_iff hx).mpr (.inr hy)
  · simpa using (below_iff hx).mpr (.inl rfl)
  · simpa using h.acyclic q

theorem depth_eq (hx : t.pPrnt x = some q) (hy : t.pPrnt y = some q) : t.depth x = t.depth y := by
  have he : t.Below x = t.Below y := by
    funext z
    rw [below_iff hx, below_iff hy]
  rw [depth, depth, he]

theorem rank_le (h : t.WellFormed) (x : PcbPtr) : t.rank x ≤ maxProc := by
  unfold rank
  split
  · omega
  · exact List.idxOf_le_length.trans (length_le_maxProc (h.nodup _))

theorem rank_lt (h : t.WellFormed) (hy : t.pNextSib x = some y) : t.rank x < t.rank y := by
  obtain ⟨q, hxq, hyq⟩ := h.next_prnt hy
  obtain ⟨l₁, l₂, hl⟩ := h.next_mem ((h.member x q).mpr hxq) hy
  have hnd := h.nodup q
  rw [hl] at hnd
  obtain ⟨-, hcons, happ⟩ := List.nodup_append.mp hnd
  have hx : x ∉ l₁ := fun hx => happ x hx x (by simp) rfl
  have hy : y ∉ l₁ := fun hy => happ y hy y (by simp) rfl
  have hne : x ≠ y := fun e => (List.nodup_cons.mp hcons).1 (by simp [e])
  simp [rank, hxq, hyq, hl, List.idxOf_append, hx, hy, hne]

theorem ok (h : t.WellFormed) : t.Ok Finset.univ t.age where
  child_live _ := ⟨Finset.mem_univ _, Finset.mem_univ _⟩
  next_live _ := ⟨Finset.mem_univ _, Finset.mem_univ _⟩
  child_inj hx hy := Option.some.inj ((h.child_prnt hx).symm.trans (h.child_prnt hy))
  next_inj hx hy := h.next_inj hx hy
  apart hx hy := nomatch (h.prev_first hx).symm.trans ((h.inverse _ _).mpr hy)
  child_prnt hx := h.child_prnt hx
  next_prnt hx := by
    obtain ⟨q, hxq, hyq⟩ := h.next_prnt hx
    rw [hxq, hyq]
    exact ⟨rfl, nofun⟩
  prev_next hx := (h.inverse _ _).mp hx
  child_age hx := by
    rename_i x y
    have hr := h.rank_le x
    calc t.depth x * (maxProc + 1) + t.rank x
      _ < (t.depth x + 1) * (maxProc + 1) := by rw [Nat.add_one_mul]; omega
      _ ≤ t.depth y * (maxProc + 1) := Nat.mul_le_mul_right _ (h.depth_lt (h.child_prnt hx))
      _ ≤ t.depth y * (maxProc + 1) + t.rank y := Nat.le_add_right ..
  next_age hx := by
    obtain ⟨q, hxq, hyq⟩ := h.next_prnt hx
    rw [age, age, depth_eq hxq hyq]
    exact Nat.add_lt_add_left (h.rank_lt hx) _

theorem prevAgrees (h : t.WellFormed) (p : PcbPtr) : PrevAgrees t p := fun x hx =>
  (h.inverse p x).mpr hx

theorem exact (h : t.WellFormed) : t.Exact Finset.univ := by
  intro x _ q hq
  refine ⟨Finset.mem_univ q, ?_⟩
  rcases h.first_or_next hq with hx | ⟨a, ha⟩
  · exact .inl ⟨q, hx⟩
  · exact .inr ⟨a, ha⟩

end WellFormed

end Tree

/-! ## What the walk does not touch -/

section

variable {t t' : Tree} {p q c x y : PcbPtr} {v : Option PcbPtr} {vs : List PcbPtr}

theorem unlinkChild_setChild (t : Tree) (p q : PcbPtr) (v : Option PcbPtr) :
    unlinkChild (t.setChild q v) p = (unlinkChild t p).setChild q v := by
  simp only [unlinkChild, Tree.setChild, Tree.setPrnt]
  cases t.pPrevSib p with
  | none => cases t.pNextSib p <;> rfl
  | some s =>
      simp only [Tree.setNextSib, Tree.setPrevSib]
      cases Function.update t.pNextSib s (t.pNextSib p) p <;> rfl

theorem removeChild_setChild (hqp : q ≠ p) :
    removeChild (t.setChild q v) p = ((removeChild t p).1, (removeChild t p).2.setChild q v) := by
  have hp : (t.setChild q v).pChild p = t.pChild p := Function.update_of_ne hqp.symm ..
  unfold removeChild
  rw [hp]
  cases t.pChild p with
  | none => rfl
  | some c =>
      have hcomm : (t.setChild q v).setChild p (t.pNextSib c) =
          (t.setChild p (t.pNextSib c)).setChild q v := by
        simp only [Tree.setChild, Function.update_comm hqp]
      exact congrArg (some c, ·) ((congrArg (unlinkChild · c) hcomm).trans
        (unlinkChild_setChild ..))

theorem removeChild_prnt (hc : removeChild t p = (some c, t')) : t'.pPrnt c = none := by
  unfold removeChild at hc
  split at hc
  · exact nomatch hc
  · obtain ⟨⟨⟩, rfl⟩ := Prod.mk.inj hc
    simp

theorem outChild_orphan (hp : t.pPrnt p = none) : outChild t p = t := by simp [outChild, hp]

/-- The first child of a PCB that is not given up is neither read nor written. -/
theorem treeWalk_setChild (fuel : Nat) : ∀ {t t' : Tree} {p : PcbPtr} {vs : List PcbPtr},
    (t.pPrnt p = none → treeWalk fuel t p = some (vs, t') → q ∉ vs →
      treeWalk fuel (t.setChild q v) p = some (vs, t'.setChild q v)) ∧
    (treeWalkChildren fuel t p = some (vs, t') → q ∉ vs → q ≠ p →
      treeWalkChildren fuel (t.setChild q v) p = some (vs, t'.setChild q v)) := by
  induction fuel with
  | zero => exact fun {_ _ _ _} => ⟨nofun, nofun⟩
  | succ fuel ih =>
      intro t t' p vs
      constructor
      · intro hp h hq
        have hp' : (t.setChild q v).pPrnt p = none := hp
        rw [treeWalk, outChild_orphan hp] at h
        obtain ⟨⟨ws, t₁⟩, hws, ⟨⟩⟩ := Option.bind_eq_some_iff.mp h
        simp only [List.mem_append, List.mem_singleton, not_or] at hq
        rw [treeWalk, outChild_orphan hp', ih.2 hws hq.1 hq.2]
        rfl
      · intro h hq hqp
        rw [treeWalkChildren] at h ⊢
        rw [removeChild_setChild hqp]
        rcases hrem : removeChild t p with ⟨_ | c, t₁⟩
        · simp only [hrem] at h
          obtain ⟨rfl, rfl⟩ := Prod.mk.inj (Option.some.inj h)
          rfl
        · simp only [hrem] at h
          obtain ⟨⟨ws, t₂⟩, hws, h⟩ := Option.bind_eq_some_iff.mp h
          obtain ⟨⟨us, t₃⟩, hus, ⟨⟩⟩ := Option.bind_eq_some_iff.mp h
          simp only [List.mem_append, not_or] at hq
          simp only [ih.1 (removeChild_prnt hrem) hws hq.1, ih.2 hus hq.2 hqp,
            Option.bind_eq_bind, Option.bind_some, Option.pure_def]

theorem treeWalk_child {fuel : Nat} (hp : t.pPrnt p = none)
    (h : treeWalk fuel t p = some (vs, t')) (hx : x ∉ vs) : t'.pChild x = t.pChild x := by
  have hset : t.setChild x (t.pChild x) = t := by
    rw [Tree.setChild, Function.update_eq_self]
  have h' := (treeWalk_setChild fuel (v := t.pChild x)).1 hp h hx
  rw [hset, h] at h'
  have ht := congrArg (·.2.pChild x) (Option.some.inj h')
  simpa [Tree.setChild] using ht

/-! ## The subtree -/

/-- Below `p` nothing depends on where `p` is. -/
theorem Tree.Cut.below_iff (h : t.WellFormed) (hc : Tree.Cut t t' p) :
    t'.Below x p ↔ t.Below x p := by
  refine ⟨fun hx => hx.mono hc.prnt_sub, fun hx => ?_⟩
  have hne : ∀ {y}, t.Below y p → y ≠ p := by
    rintro y hy rfl
    exact h.acyclic y hy
  induction hx using Relation.TransGen.head_induction_on with
  | single hxp => exact .single ((hc.prnt_keep (hne (.single hxp))).trans hxp)
  | head hxy hy ih => exact .head ((hc.prnt_keep (hne (.head hxy hy))).trans hxy) ih

theorem treeWalk_outChild (h : t.WellFormed) (p : PcbPtr) (fuel : Nat) :
    treeWalk (fuel + 1) (outChild t p) p = treeWalk (fuel + 1) t p := by
  have hcut := outChild_cut h.ok (h.prevAgrees p)
  rw [treeWalk, treeWalk, outChild_orphan hcut.prnt_self]

/-- A first child with siblings: as far as the walk is concerned, it might as
well have been removed. -/
theorem outChild_eq_setChild (h : t.WellFormed) (hc : t.pChild q = some p) :
    outChild t p = (removeChild t q).2.setChild q none := by
  have hset : ∀ w, unlinkChild (t.setChild q w) p = (unlinkChild t p).setChild q w :=
    unlinkChild_setChild t p q
  simp only [outChild, removeChild, h.child_prnt hc, hc, h.prev_first hc, hset, if_true]
  simp [Tree.setChild]

theorem treeWalk_mem (h : t.WellFormed) (p : PcbPtr) : ∃ vs t',
    treeWalk walkFuel t p = some (vs, t') ∧ vs.Nodup ∧ ∀ x, x ∈ vs ↔ x = p ∨ t.Below x p := by
  by_cases hfirst : ∀ x, t.pChild x = some p → t.pNextSib p = none
  case pos =>
    obtain ⟨vs, t', hvs, hk⟩ := treeWalk_spec h.ok (Finset.mem_univ p) (h.prevAgrees p)
    refine ⟨vs, t', hvs, hk.nodup, fun x => ?_⟩
    simpa using hk.mem_iff h.exact (hk.exact h.exact hfirst)
  case neg =>
    obtain ⟨q, hq⟩ := not_forall.mp hfirst
    obtain ⟨hc, -⟩ := Classical.not_imp.mp hq
    obtain ⟨s, hrem, hcut, -⟩ := removeChild_cut h.ok hc
    obtain ⟨-, hs, -⟩ := h.remove q
    have hout := outChild_eq_setChild h hc
    rw [hrem] at hs hout
    obtain ⟨vs, t', hvs, hk⟩ := treeWalk_spec hs.ok (Finset.mem_univ p) (hs.prevAgrees p)
    have hmem : ∀ x, x ∈ vs ↔ x = p ∨ t.Below x p := fun x => by
      have hexact := hk.exact hs.exact fun y hy =>
        nomatch hcut.prnt_self.symm.trans (hs.child_prnt hy)
      rw [← hcut.below_iff h]
      simpa using hk.mem_iff hs.exact hexact
    have hqvs : q ∉ vs := fun hqv => by
      rcases (hmem q).mp hqv with rfl | hb
      · exact h.acyclic q (.single (h.child_prnt hc))
      · exact h.acyclic q (hb.tail (h.child_prnt hc))
    refine ⟨vs, t'.setChild q none, ?_, hk.nodup, hmem⟩
    rw [← treeWalk_outChild h, hout]
    exact (treeWalk_setChild walkFuel).1 hcut.prnt_self hvs hqvs

/-- What the walk from `p` gives up, and what it leaves alone. -/
structure Tree.Pruned (t t' : Tree) (p : PcbPtr) (vs : List PcbPtr) : Prop where
  nodup : vs.Nodup
  mem_iff : ∀ x, x ∈ vs ↔ x = p ∨ t.Below x p
  children : ∀ x, x ∉ vs → t.pPrnt p ≠ some x → t'.children x = t.children x

theorem treeWalk_subtree (h : t.WellFormed) (p : PcbPtr) : ∃ vs t',
    treeWalk walkFuel t p = some (vs, t') ∧ t.Pruned t' p vs := by
  obtain ⟨vs, t', hvs, hnd, hmem⟩ := treeWalk_mem h p
  refine ⟨vs, t', hvs, hnd, hmem, fun x hx hpx => ?_⟩
  have hcut := outChild_cut h.ok (h.prevAgrees p)
  have hout : treeWalk walkFuel (outChild t p) p = some (vs, t') :=
    (treeWalk_outChild h p _).trans hvs
  -- the links of the siblings, for which the walk is known to be the same
  have hnext : ∀ y, y ∉ vs → t'.pNextSib y = (outChild t p).pNextSib y := by
    intro y hy
    have hcard : (Finset.univ.filter (t.age p < t.age ·)).card ≤ maxProc := by
      simpa using Finset.card_le_univ (Finset.univ.filter (t.age p < t.age ·))
    obtain ⟨ws, s, hws, hw⟩ := treeWalkChildren_spec maxProc _ _ p _ hcard (h.ok.cut hcut) le_rfl
    have hwalk : treeWalk walkFuel t p = some (ws ++ [p], s) :=
      Option.bind_eq_some_iff.mpr ⟨_, hws, rfl⟩
    obtain ⟨rfl, rfl⟩ := Prod.mk.inj (Option.some.inj (hwalk.symm.trans hvs))
    exact hw.next fun hyw => hy (List.mem_append_left _ hyw)
  have hkid : ∀ y ∈ t.children x, y ∉ vs ∧ t'.pNextSib y = t.pNextSib y := by
    intro y hy
    have hyx := (h.member y x).mp hy
    have hyp : y ≠ p := fun e => hpx (e ▸ hyx)
    have hyvs : y ∉ vs := fun hyv => by
      rcases (hmem y).mp hyv with e | hb
      · exact hyp e
      · exact hx ((hmem x).mpr ((Tree.below_iff hyx).mp hb))
    refine ⟨hyvs, (hnext y hyvs).trans (hcut.next_keep hyp fun hyn => ?_)⟩
    obtain ⟨r, hyr, hpr⟩ := h.next_prnt hyn
    exact hpx (hpr.trans (hyr.symm.trans hyx))
  have hfirst : t'.pChild x = t.pChild x :=
    (treeWalk_child hcut.prnt_self hout hx).trans
      (hcut.child_keep fun e => hpx (h.child_prnt e))
  refine Tree.children_eq ?_ (h.nodup x)
  rw [hfirst]
  exact (h.chain x).congr fun y hy => (hkid y hy).2

end

/-! ## Consistent states -/

namespace Queues

/-- The queues hold what they seem to hold, no PCB is in two of them, and
`p_semAdd` tells where the PCBs are that are not free. -/
structure Consistent (q : Queues) : Prop where
  free : FreeRing q q.freeList false
  ready : IsRing q.links q.readyQueue q.readyList
  asl : ∃ act unused, AslRep q q.blockedOn act unused
  free_ready : q.freeList.Disjoint q.readyList
  free_blocked : q.freeList.Disjoint q.blockedList
  ready_blocked : q.readyList.Disjoint q.blockedList
  blocked : ∀ s, ∀ p ∈ q.blockedOn s, q.pSemAdd p = s
  others : ∀ p, p ∉ q.freeList → p ∉ q.blockedList → q.pSemAdd p = 0

/-- Without what `p_semAdd` says of free PCBs. -/
def tidy (q : Queues) : Queues :=
  { q with pSemAdd := fun p => if p ∈ q.freeList then 0 else q.pSemAdd p }

def fifos (q : Queues) : Fifos := ⟨q.freeList, false, q.readyList, q.blockedOn, q.pSemAdd⟩

variable {q : Queues} {p : PcbPtr} {s : Word}

theorem Consistent.mem_blockedList (h : q.Consistent) :
    p ∈ q.blockedList ↔ ∃ s, p ∈ q.blockedOn s := by
  obtain ⟨act, unused, hasl⟩ := h.asl
  exact hasl.mem_blockedList p

theorem Consistent.blockedOn_nodup (h : q.Consistent) (s : Word) : (q.blockedOn s).Nodup := by
  obtain ⟨act, unused, hasl⟩ := h.asl
  by_cases hs : q.blockedOn s = []
  · rw [hs]
    exact .nil
  · obtain ⟨d, hd, rfl⟩ := hasl.complete s hs
    exact (hasl.ring d hd).nodup

theorem Consistent.rep (h : q.Consistent) : QRep q.tidy q.tidy.fifos := by
  obtain ⟨act, unused, hasl⟩ := h.asl
  have hmem := hasl.mem_blockedList
  have htidy : ∀ p, p ∉ q.freeList → q.tidy.pSemAdd p = q.pSemAdd p := fun p hp => if_neg hp
  have hblocked : ∀ p s, p ∈ q.blockedOn s ↔ q.tidy.pSemAdd p = s ∧ s ≠ 0 := by
    intro p s
    constructor
    · intro hp
      obtain ⟨d, hd, hds⟩ := hasl.complete s (List.ne_nil_of_mem hp)
      rw [htidy p fun hf => h.free_blocked hf ((hmem p).mpr ⟨s, hp⟩)]
      exact ⟨h.blocked s p hp, hds ▸ (hasl.active.inner d hd).1⟩
    · rintro ⟨rfl, hs⟩
      have hf : p ∉ q.freeList := fun hf => hs (if_pos hf)
      rw [htidy p hf] at hs ⊢
      have hp : p ∈ q.blockedList := by
        by_contra hp
        exact hs (h.others p hf hp)
      obtain ⟨s, hp⟩ := (hmem p).mp hp
      exact h.blocked s p hp ▸ hp
  refine ⟨?_, rfl, h.free.congr rfl fun _ _ => ⟨rfl, rfl⟩, h.ready, act, unused,
    hasl.congr rfl rfl rfl rfl rfl fun _ _ _ => ⟨rfl, rfl⟩⟩
  constructor
  case free_nodup => exact (h.free.cycle rfl).nodup
  case ready_nodup => exact h.ready.nodup
  case blocked_nodup => exact h.blockedOn_nodup
  case disjoint => exact h.free_ready
  case mem_blocked => exact hblocked
  case pSemAdd_free => exact fun p hp => if_pos hp
  case pSemAdd_ready =>
    intro p hp
    have hf : p ∉ q.freeList := fun hf => h.free_ready hf hp
    exact (htidy p hf).trans (h.others p hf fun hb => h.ready_blocked hp hb)
  case ne_maxAdd =>
    intro p hp
    have hmax : p ∈ q.blockedOn maxAdd := (hblocked p maxAdd).mpr ⟨hp, by decide⟩
    obtain ⟨d, hd, hds⟩ := hasl.complete maxAdd (List.ne_nil_of_mem hmax)
    exact (hasl.active.inner d hd).2 hds

end Queues

theorem QRep.consistent {q : Queues} {f : Fifos} (h : QRep q f) (hc : IsCycle q.links f.free) :
    q.Consistent := by
  have hb : q.blockedOn = f.blocked := funext h.blockedOn_eq
  have hmem := h.mem_blockedList
  constructor
  case free => exact h.freeList_eq ▸ ⟨h.free.queue, fun _ => hc⟩
  case ready => exact h.readyList_eq ▸ h.ready
  case asl => exact hb ▸ h.asl
  case free_ready =>
    rw [h.freeList_eq, h.readyList_eq]
    exact h.wf.disjoint
  case free_blocked =>
    rw [h.freeList_eq]
    exact fun p hp hpb => (hmem p).mp hpb (h.wf.pSemAdd_free p hp)
  case ready_blocked =>
    rw [h.readyList_eq]
    exact fun p hp hpb => (hmem p).mp hpb (h.wf.pSemAdd_ready p hp)
  case blocked =>
    intro s p hp
    rw [h.pSemAdd]
    exact ((h.wf.mem_blocked p s).mp (hb ▸ hp)).1
  case others =>
    intro p _ hp
    rw [h.pSemAdd]
    by_contra hne
    exact hp ((hmem p).mpr hne)

/-! ## `p_semAdd` of free PCBs -/

/-- The same, up to what `p_semAdd` says of the PCBs in `l`. -/
def Queues.Alike (l : List PcbPtr) (q q₀ : Queues) : Prop :=
  ∃ g, q₀ = { q with pSemAdd := g } ∧ ∀ p, p ∉ l → g p = q.pSemAdd p

namespace Queues.Alike

variable {l : List PcbPtr} {q q₀ : Queues} {p : PcbPtr}

theorem tidy (q : Queues) : q.Alike q.freeList q.tidy := ⟨_, rfl, fun _ hp => if_neg hp⟩

theorem pSemAdd (h : q.Alike l q₀) (hp : p ∉ l) : q.pSemAdd p = q₀.pSemAdd p := by
  obtain ⟨g, rfl, hg⟩ := h
  exact (hg p hp).symm

theorem freePcbRing (h : q.Alike l q₀) (p : PcbPtr) :
    Refines (Alike l) (QueueOps.freePcbRing q p) (QueueOps.freePcbRing q₀ p) := by
  obtain ⟨g, rfl, hg⟩ := h
  show Refines _ (Pandos.freePcbRing _ _) (Pandos.freePcbRing _ _)
  unfold Pandos.freePcbRing
  dsimp only
  cases q.pcbFreeH with
  | none => exact .pure ⟨g, rfl, hg⟩
  | some x => exact .bind_same _ fun b => .pure ⟨g, rfl, hg⟩

theorem outReady (h : q.Alike l q₀) (p : PcbPtr) :
    Refines (fun x y => x.1 = y.1 ∧ x.2.Alike l y.2) (QueueOps.outReady q p)
      (QueueOps.outReady q₀ p) := by
  obtain ⟨g, rfl, hg⟩ := h
  exact .bind_same _ fun r => .pure ⟨rfl, g, rfl, hg⟩

theorem findSem (q : Queues) (g : PcbPtr → Word) (s : Word) :
    findSemInActiveList { q with pSemAdd := g } s = findSemInActiveList q s := by
  have hloop : ∀ fuel tmp, findSemLoop { q with pSemAdd := g } s fuel tmp =
      findSemLoop q s fuel tmp := by
    intro fuel
    induction fuel with
    | zero => exact fun _ => rfl
    | succ fuel ih => exact fun tmp => by simp only [findSemLoop, ih]
  simp only [findSemInActiveList, hloop]

theorem outBlocked (h : q.Alike l q₀) (hp : p ∉ l) :
    Refines (fun x y => x.1 = y.1 ∧ x.2.Alike l y.2) (QueueOps.outBlocked q p)
      (QueueOps.outBlocked q₀ p) := by
  obtain ⟨g, rfl, hg⟩ := h
  show Refines _ (Pandos.outBlocked _ _) (Pandos.outBlocked _ _)
  unfold Pandos.outBlocked
  simp only [findSem, hg p hp]
  refine .bind_same _ fun tmp => .bind_same _ fun nx => .bind_same _ ?_
  rintro ⟨released, L, tp⟩
  cases released with
  | none => exact .pure ⟨rfl, g, rfl, hg⟩
  | some r =>
      refine .pure ⟨rfl, Function.update g r 0, ?_, ?_⟩
      · dsimp only
        split <;> rfl
      · intro x hx
        have hsem : ∀ q' : Queues, q'.pSemAdd = q.pSemAdd →
            Function.update g r 0 x = Function.update q'.pSemAdd r 0 x := by
          intro q' hq'
          by_cases hxr : x = r
          · rw [hxr, Function.update_self, Function.update_self]
          · rw [Function.update_of_ne hxr, Function.update_of_ne hxr, hq', hg x hx]
        dsimp only
        split <;> exact hsem _ rfl

end Queues.Alike

/-- The same for states of the nucleus. -/
def Kernel.Alike (l : List PcbPtr) (k k₀ : Kernel Queues) : Prop :=
  k.toShared = k₀.toShared ∧ k.q.Alike l k₀.q

section

variable {l : List PcbPtr} {k k₀ : Kernel Queues} {p : PcbPtr}

theorem Kernel.Alike.freePcb (h : k.Alike l k₀) (p : PcbPtr) :
    Refines (Kernel.Alike l) (Pandos.freePcb k p) (Pandos.freePcb k₀ p) := by
  obtain ⟨sh, q⟩ := k
  obtain ⟨_, q₀⟩ := k₀
  obtain ⟨rfl, h⟩ := h
  exact (h.freePcbRing p).bind fun _ _ h => .pure ⟨rfl, h⟩

theorem Kernel.Alike.releasePcb (h : k.Alike l k₀) (hp : p ∉ l) :
    Refines (Kernel.Alike l) (Pandos.releasePcb k p) (Pandos.releasePcb k₀ p) := by
  obtain ⟨sh, q⟩ := k
  obtain ⟨_, q₀⟩ := k₀
  obtain ⟨rfl, h⟩ := h
  have hsem : QueueOps.pSemAdd q p = QueueOps.pSemAdd q₀ p := h.pSemAdd hp
  unfold Pandos.releasePcb
  simp only [hsem]
  refine .ite (fun _ => ?_) fun _ => ?_
  · refine (h.outBlocked hp).bind ?_
    rintro ⟨r, q⟩ ⟨_, f⟩ ⟨⟨⟩, h⟩
    refine Kernel.Alike.freePcb ?_ p
    exact ⟨rfl, h⟩
  · refine (h.outReady p).bind ?_
    rintro ⟨r, q⟩ ⟨_, f⟩ ⟨⟨⟩, h⟩
    refine Kernel.Alike.freePcb ?_ p
    exact ⟨rfl, h⟩

mutual

/-- The walk asks for the semaphores of the PCBs it gives up, and of no others. -/
theorem terminateProcessRec_alike : ∀ {fuel : Nat} {k k₀ : Kernel Queues} {p : PcbPtr}
    {vs : List PcbPtr} {t : Tree}, k.Alike l k₀ → treeWalk fuel k.tree p = some (vs, t) →
      (∀ v ∈ vs, v ∉ l) →
      Refines (Kernel.Alike l) (terminateProcessRec fuel k p) (terminateProcessRec fuel k₀ p)
  | 0, _, _, _, _, _, _, h, _ => nomatch h
  | fuel + 1, ⟨sh, q⟩, ⟨_, q₀⟩, p, _, _, ⟨rfl, ha⟩, h, hl => by
      obtain ⟨⟨ws, t⟩, hws, ⟨⟩⟩ := Option.bind_eq_some_iff.mp h
      refine Refines.bind (R := Kernel.Alike l) ?_ fun a b hab => hab.releasePcb (hl p (by simp))
      refine terminateChildren_alike (k := ⟨{ sh with tree := outChild sh.tree p }, q⟩)
        ⟨rfl, ha⟩ hws fun v hv => hl v (List.mem_append_left _ hv)

theorem terminateChildren_alike : ∀ {fuel : Nat} {k k₀ : Kernel Queues} {p : PcbPtr}
    {vs : List PcbPtr} {t : Tree}, k.Alike l k₀ → treeWalkChildren fuel k.tree p = some (vs, t) →
      (∀ v ∈ vs, v ∉ l) →
      Refines (Kernel.Alike l) (terminateChildren fuel k p) (terminateChildren fuel k₀ p)
  | 0, _, _, _, _, _, _, h, _ => nomatch h
  | fuel + 1, ⟨sh, q⟩, ⟨_, q₀⟩, p, vs, t, ⟨rfl, ha⟩, h, hl => by
      cases hc : sh.tree.pChild p with
      | none =>
          have he : emptyChild sh.tree p = true := by simp [emptyChild, hc]
          simp only [terminateChildren, he, if_true]
          exact .pure ⟨rfl, ha⟩
      | some child =>
          have he : emptyChild sh.tree p = false := by simp [emptyChild, hc]
          simp only [treeWalkChildren, removeChild, hc] at h
          obtain ⟨⟨ws, t₁⟩, hws, h⟩ := Option.bind_eq_some_iff.mp h
          obtain ⟨⟨us, t₂⟩, hus, ⟨⟩⟩ := Option.bind_eq_some_iff.mp h
          let sh' := { sh with
            tree := unlinkChild (sh.tree.setChild p (sh.tree.pNextSib child)) child }
          simp only [terminateChildren, he, removeChild, hc]
          intro b hb
          obtain ⟨b₁, hb₁, hb⟩ := Option.bind_eq_some_iff.mp hb
          have hchild : Kernel.Alike l ⟨sh', q⟩ ⟨sh', q₀⟩ := ⟨rfl, ha⟩
          obtain ⟨a₁, ha₁, hab₁⟩ := terminateProcessRec_alike hchild hws
            (fun v hv => hl v (List.mem_append_left _ hv)) b₁ hb₁
          obtain ⟨ws', hws'⟩ := terminateProcessRec_walk ha₁
          obtain ⟨-, rfl⟩ := Prod.mk.inj (Option.some.inj (hws.symm.trans hws'))
          obtain ⟨a, ha, hab⟩ := terminateChildren_alike hab₁ hus
            (fun v hv => hl v (List.mem_append_right _ hv)) b hb
          exact ⟨a, Option.bind_eq_some_iff.mpr ⟨a₁, ha₁, ha⟩, hab⟩

end

end

/-! ## Terminations -/

/-- The state of a kernel in which nothing is amiss: free PCBs have no place in
the forest either. -/
structure Kernel.Consistent (k : Kernel Queues) : Prop where
  queues : k.q.Consistent
  forest : k.tree.WellFormed
  live : ∀ x ∈ k.q.freeList, k.tree.pPrnt x = none

/-- `p` and all below it, `vs`, have been given up, and nobody else. -/
structure Kernel.Terminated (k k' : Kernel Queues) (p : PcbPtr) (vs : List PcbPtr) : Prop where
  nodup : vs.Nodup
  subtree : ∀ x, x ∈ vs ↔ x = p ∨ k.tree.Below x p
  free : k'.q.freeList = k.q.freeList ++ vs
  elsewhere : ∀ x ∈ vs, x ∉ k'.readyList ∧ x ∉ k'.q.blockedList
  processCount : k'.processCount = k.processCount - vs.length
  semaphores : ∀ s, k'.mem s = k.mem s + (k.blockedOn s).countP (· ∈ vs)
  ready : k'.readyList = k.readyList.filter fun x => !decide (x ∈ vs)
  blocked : ∀ s, k'.blockedOn s = (k.blockedOn s).filter fun x => !decide (x ∈ vs)
  queues : k'.q.Consistent
  descriptors : ∀ d, d ≠ 0 → d ≠ 1 →
    (d ∈ k'.q.freeSemds ↔ ¬ (d ∈ k'.q.activeSemds ∧ k'.blockedOn (k'.q.sSemAdd d) ≠ []))
  children : ∀ x, x ∉ vs → k.tree.pPrnt p ≠ some x → k'.tree.children x = k.tree.children x

section

variable {l : List PcbPtr} {q q₀ : Queues} {k : Kernel Queues} {p : PcbPtr}

theorem Queues.Consistent.aslWf (h : q.Consistent) : q.AslWf := by
  obtain ⟨act, unused, hasl⟩ := h.asl
  exact AslInv.wf ⟨hasl, h.blocked⟩

theorem Queues.Consistent.descriptor (h : q.Consistent) {d : SemdPtr} (h0 : d ≠ 0) (h1 : d ≠ 1) :
    d ∈ q.freeSemds ↔ ¬ (d ∈ q.activeSemds ∧ q.blockedOn (q.sSemAdd d) ≠ []) := by
  have hwf := h.aslWf
  constructor
  · rintro hf ⟨ha, -⟩
    exact (List.nodup_append.mp hwf.nodup).2.2 d ha d hf rfl
  · intro hn
    rcases List.mem_append.mp ((hwf.cover d).mpr ⟨h0, h1⟩) with ha | hf
    · exact absurd ⟨ha, (hwf.queues d ha).2⟩ hn
    · exact hf

theorem Queues.Alike.lists (h : q.Alike l q₀) : q.freeList = q₀.freeList ∧
    q.readyList = q₀.readyList ∧ q.blockedOn = q₀.blockedOn ∧ q.blockedList = q₀.blockedList := by
  obtain ⟨g, rfl, -⟩ := h
  exact ⟨rfl, rfl, rfl, rfl⟩

/-- What `p_semAdd` says of free PCBs does not matter. -/
theorem Queues.Alike.consistent (h : q.Alike l q₀) (hc : q₀.Consistent)
    (hl : ∀ p ∈ l, p ∈ q₀.freeList) : q.Consistent := by
  obtain ⟨g, rfl, hg⟩ := h
  obtain ⟨act, unused, hasl⟩ := hc.asl
  have hsem : ∀ p, p ∉ q.freeList → q.pSemAdd p = g p := fun p hp =>
    (hg p fun hpl => hp (hl p hpl)).symm
  refine ⟨hc.free.congr rfl fun _ _ => ⟨rfl, rfl⟩, hc.ready, ⟨act, unused, ?_⟩, hc.free_ready,
    hc.free_blocked, hc.ready_blocked, fun s p hp => ?_, fun p hf hp => ?_⟩
  · exact hasl.congr rfl rfl rfl rfl rfl fun _ _ _ => ⟨rfl, rfl⟩
  · rw [hsem p fun hf => hc.free_blocked hf (hc.mem_blockedList.mpr ⟨s, hp⟩)]
    exact hc.blocked s p hp
  · rw [hsem p hf]
    exact hc.others p hf hp

/-- A termination in a consistent state gives up a process and its
descendants, once each, wherever they are; everybody else stays. -/
theorem terminateProcessRec_subtree (h : k.Consistent) (hp : p ∉ k.q.freeList) :
    ∃ k' vs, terminateProcessRec walkFuel k p = some k' ∧ k.Terminated k' p vs := by
  obtain ⟨vs, t, hvs, hprune⟩ := treeWalk_subtree h.forest p
  have hlive : ∀ v ∈ vs, v ∉ k.q.freeList := by
    intro v hv hf
    rcases (hprune.mem_iff v).mp hv with rfl | hb
    · exact hp hf
    · obtain ⟨y, hy, -⟩ := Relation.TransGen.head'_iff.mp hb
      exact nomatch (h.live v hf).symm.trans hy
  -- over the lists, then over the pointers, then with what `p_semAdd` really says
  let a : Kernel Fifos := ⟨k.toShared, k.q.tidy.fifos⟩
  have hrep := h.queues.rep
  obtain ⟨b, hb, hcore⟩ := terminateProcessRec_core (a := a) hrep.wf hvs
  obtain ⟨k₁, hk₁, hsh₁, hrep₁⟩ :=
    KSim.terminateProcessRec (c := ⟨k.toShared, k.q.tidy⟩) walkFuel p ⟨rfl, hrep⟩ b hb
  have htidy : k.Alike k.q.freeList ⟨k.toShared, k.q.tidy⟩ := ⟨rfl, .tidy k.q⟩
  obtain ⟨k', hk', hsh, halike⟩ := terminateProcessRec_alike htidy hvs hlive k₁ hk₁
  have hq : b.q = (vs.foldl Core.kill { a.core with tree := t }).q := congrArg Core.q hcore
  obtain ⟨hfree, hdup, hcount⟩ :=
    Core.killAll_free vs (c := { a.core with tree := t }) hprune.nodup hlive
  have hsem := fun s => Core.killAll_sem (s := s) vs (c := { a.core with tree := t }) hrep.wf
  rw [← hq] at hfree hdup
  have hcons := halike.consistent (hrep₁.consistent (hrep₁.free.cycle hdup)) fun x hx => by
    rw [hrep₁.freeList_eq, hfree]
    exact List.mem_append_left _ hx
  obtain ⟨lfree, lready, lblocked, lmem⟩ := halike.lists
  refine ⟨k', vs, hk', hprune.nodup, hprune.mem_iff, ?_, ?_, ?_, ?_, ?_, ?_, hcons,
    fun d h0 h1 => hcons.descriptor h0 h1, ?_⟩
  · rw [lfree, hrep₁.freeList_eq, hfree]
    rfl
  · intro x hx
    obtain ⟨hr, hb⟩ := Core.killAll_dead vs (c := { a.core with tree := t }) hrep.wf (.inl hx)
    rw [← hq] at hr hb
    rw [Kernel.readyList, lready, hrep₁.readyList_eq, lmem, hrep₁.mem_blockedList, not_not]
    exact ⟨hr, hb⟩
  · rw [hsh, hsh₁]
    exact (congrArg Core.processCount hcore).trans hcount
  · intro s
    rw [hsh, hsh₁]
    exact (congrFun (congrArg Core.mem hcore) s).trans (congrArg Sem.value (hsem s))
  · rw [Kernel.readyList, lready, hrep₁.readyList_eq, hq]
    exact Core.killAll_ready vs (c := { a.core with tree := t }) hrep.wf
  · intro s
    rw [Kernel.blockedOn, lblocked, hrep₁.blockedOn_eq, hq]
    exact congrArg Sem.queue (hsem s)
  · rw [hsh, hsh₁, show b.tree = t from (congrArg Core.tree hcore).trans (Core.killAll_tree ..)]
    exact hprune.children

end

/-- Three children, the first of which is blocked and the second running. -/
def subtreeScript : List Event :=
  [callCreate, callCreate, callCreate, pltTick, callP 0x90000000]

theorem subtreeScript_final : ∃ k, Reachable k ∧ k.Consistent ∧ k.readyList = [3, 0] ∧
    k.blockedOn 0x90000000 = [1] ∧ 0 ∉ k.q.freeList := by
  have hany : (Script.eval walkFuel .zero .zero subtreeScript).any (fun x =>
      (calls ChildCall.exec .empty family).any (fun r => ∀ y,
        r.2.pPrnt y = x.final.tree.pPrnt y ∧ r.2.pChild y = x.final.tree.pChild y ∧
        r.2.pNextSib y = x.final.tree.pNextSib y ∧ r.2.pPrevSib y = x.final.tree.pPrevSib y) ∧
      IsCycle x.final.q.links x.final.q.freeList ∧
      (∀ y ∈ x.final.q.freeList, x.final.tree.pPrnt y = none) ∧
      x.final.readyList = [3, 0] ∧ x.final.blockedOn 0x90000000 = [1] ∧
      0 ∉ x.final.q.freeList) = true := by
    decide +kernel
  obtain ⟨x, hx, h⟩ := Script.exists_of_any hany
  obtain ⟨htree, hcycle, hlive, hready, hblocked, hp⟩ := of_decide_eq_true h
  obtain ⟨hboot, hrun, -⟩ := Script.run hx
  have hreach : Reachable x.final := ⟨x.start, x.trace, hboot, hrun⟩
  obtain ⟨c, hc⟩ := hreach.rep
  obtain ⟨rs, t, ht, hwf, -⟩ := family_exec
  rw [ht] at htree
  have hsame := of_decide_eq_true htree
  have heq : t = x.final.tree := (Tree.mk.injEq ..).mpr
    ⟨funext fun y => (hsame y).1, funext fun y => (hsame y).2.1,
      funext fun y => (hsame y).2.2.1, funext fun y => (hsame y).2.2.2⟩
  refine ⟨x.final, hreach, ⟨hc.queues.consistent ?_, heq ▸ hwf, hlive⟩, hready, hblocked, hp⟩
  exact hc.queues.freeList_eq ▸ hcycle

theorem terminateProcessRec_subtree_script : ∃ k, Reachable k ∧ k.readyList = [3, 0] ∧
    k.blockedOn 0x90000000 = [1] ∧
    ∃ k' vs, terminateProcessRec walkFuel k 0 = some k' ∧ k.Terminated k' 0 vs := by
  obtain ⟨k, hreach, hcons, hready, hblocked, hp⟩ := subtreeScript_final
  exact ⟨k, hreach, hready, hblocked, terminateProcessRec_subtree hcons hp⟩

end Pandos
