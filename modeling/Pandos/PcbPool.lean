/-
# `Pandos.PcbPool` — allocation of PCBs

From `initPcbs` on, through any calls of `allocPcb` and `freePcb` that free
only what is allocated, the free list is one ring, in which the PCBs stand in
the order in which they were freed:

    taken tr ++ freeList = initial ++ freed tr

so that `allocPcb` returns the one that has been free longest.  `PoolWf` says
this, and that the free and the allocated PCBs are all there are; `PoolOps`
says what the next call does.

Between two calls anything may happen to the fields of allocated PCBs
(`PoolKept`).
-/
import Pandos.Script

namespace Pandos

open Intrusive

/-! ## Histories -/

inductive PoolEvent where
  | alloc (r : Option PcbPtr)
  | free (p : PcbPtr)
deriving DecidableEq

/-- The PCBs that have been handed out, in order. -/
def taken (tr : List PoolEvent) : List PcbPtr :=
  tr.filterMap fun
    | .alloc r => r
    | .free _ => none

/-- The PCBs that have been freed, in order. -/
def freed (tr : List PoolEvent) : List PcbPtr :=
  tr.filterMap fun
    | .alloc _ => none
    | .free p => some p

def PoolEvent.after (l : List PcbPtr) : PoolEvent → List PcbPtr
  | .alloc none => l
  | .alloc (some p) => l ++ [p]
  | .free p => l.erase p

/-- The PCBs that are allocated. -/
def allocated (tr : List PoolEvent) : List PcbPtr := tr.foldl PoolEvent.after []

theorem allocated_concat (tr : List PoolEvent) (e : PoolEvent) :
    allocated (tr ++ [e]) = e.after (allocated tr) := List.foldl_concat ..

/-- What the rest of the nucleus may do. -/
structure PoolKept (k k' : Kernel Queues) : Prop where
  head : k'.q.pcbFreeH = k.q.pcbFreeH
  count : k'.processCount = k.processCount
  links : k.q.links.AgreeOn k'.q.links k.q.freeList

/-- The states the calls lead to; `processCount` is zero before the first. -/
inductive PoolRun : List PoolEvent → Kernel Queues → Prop where
  | init {k : Kernel Queues} : k.processCount = 0 → PoolRun [] { k with q := initPcbs k.q }
  | alloc {tr k k' r} : PoolRun tr k → allocPcb k = some (r, k') → PoolRun (tr ++ [.alloc r]) k'
  | free {tr k k' p} : PoolRun tr k → p ∈ allocated tr → freePcb k p = some k' →
      PoolRun (tr ++ [.free p]) k'
  | elsewhere {tr k k'} : PoolRun tr k → PoolKept k k' → PoolRun tr k'

/-! ## What holds all along -/

/-- The free PCBs are one ring, and together with the allocated ones all. -/
structure PoolWf (tr : List PoolEvent) (k : Kernel Queues) : Prop where
  head : k.q.pcbFreeH = k.q.freeList.head?
  ring : IsCycle k.q.links k.q.freeList
  order : taken tr ++ k.q.freeList = List.finRange maxProc ++ freed tr
  partition : (k.q.freeList ++ allocated tr).Perm (List.finRange maxProc)
  count : k.processCount = (allocated tr).length

/-- No field of `x` has changed. -/
structure SamePcb (k k' : Kernel Queues) (x : PcbPtr) : Prop where
  next : k'.q.links.next x = k.q.links.next x
  prev : k'.q.links.prev x = k.q.links.prev x
  semAdd : k'.q.pSemAdd x = k.q.pSemAdd x
  prnt : k'.tree.pPrnt x = k.tree.pPrnt x
  child : k'.tree.pChild x = k.tree.pChild x
  nextSib : k'.tree.pNextSib x = k.tree.pNextSib x
  prevSib : k'.tree.pPrevSib x = k.tree.pPrevSib x
  state : k'.pS x = k.pS x
  time : k'.pTime x = k.pTime x
  support : k'.pSupportStruct x = k.pSupportStruct x

/-- The links of `p`, its support pointer and its time are cleared. -/
structure Cleared (k : Kernel Queues) (p : PcbPtr) : Prop where
  next : k.q.links.next p = none
  prev : k.q.links.prev p = none
  prnt : k.tree.pPrnt p = none
  child : k.tree.pChild p = none
  nextSib : k.tree.pNextSib p = none
  prevSib : k.tree.pPrevSib p = none
  support : k.pSupportStruct p = 0
  time : k.pTime p = 0

/-- What the next call does. -/
structure PoolOps (tr : List PoolEvent) (k : Kernel Queues) : Prop where
  alloc : ∃ k', allocPcb k = some (k.q.freeList.head?, k') ∧
    (∀ p, k.q.freeList.head? = some p → p ∉ allocated tr ∧ Cleared k' p) ∧
      ∀ x ∈ allocated tr, SamePcb k k' x
  null : k.q.freeList.head? = none ↔ (allocated tr).length = maxProc
  free : ∀ p ∈ allocated tr, ∃ k', freePcb k p = some k' ∧
    ∀ x ∈ allocated tr, x ≠ p → SamePcb k k' x

/-- The invariant: `PoolWf`, with the list that is read off the pointers. -/
structure PoolInv (tr : List PoolEvent) (k : Kernel Queues) (free : List PcbPtr) : Prop where
  ring : FreeRing k.q free false
  order : taken tr ++ free = List.finRange maxProc ++ freed tr
  partition : (free ++ allocated tr).Perm (List.finRange maxProc)
  count : k.processCount = (allocated tr).length

/-- The PCB that leaves the ring keeps no links. -/
theorem allocPcbRing_cleared {q q' : Queues} {p : PcbPtr}
    (h : allocPcbRing q = some (some p, q')) : q'.links.next p = none ∧ q'.links.prev p = none := by
  unfold allocPcbRing at h
  cases hH : q.pcbFreeH with
  | none => simp [hH] at h
  | some f =>
      simp only [hH] at h
      obtain ⟨L, -, h⟩ := Option.bind_eq_some_iff.mp h
      obtain ⟨hp, rfl⟩ := Prod.mk.inj (Option.some.inj h)
      obtain rfl := Option.some.inj hp
      exact ⟨by simp, by simp⟩

namespace PoolInv

variable {tr : List PoolEvent} {k k' : Kernel Queues} {free : List PcbPtr} {p x : PcbPtr}

theorem freeList_eq (h : PoolInv tr k free) : k.q.freeList = free :=
  h.ring.queue.queueAt_eq (length_le_maxProc h.ring.queue.nodup)

theorem nodup (h : PoolInv tr k free) : (free ++ allocated tr).Nodup :=
  h.partition.nodup_iff.mpr (List.nodup_finRange _)

theorem not_free (h : PoolInv tr k free) (hp : p ∈ allocated tr) : p ∉ free := fun hf =>
  (List.nodup_append.mp h.nodup).2.2 p hf p hp rfl

theorem wf (h : PoolInv tr k free) : PoolWf tr k := by
  have hfree := h.freeList_eq
  constructor
  case head => rw [hfree]; exact h.ring.queue.head_eq
  case ring => rw [hfree]; exact h.ring.cycle rfl
  case order => rw [hfree]; exact h.order
  case partition => rw [hfree]; exact h.partition
  case count => exact h.count

theorem init (h₀ : k.processCount = 0) :
    PoolInv [] { k with q := initPcbs k.q } (List.finRange maxProc) where
  ring := initPcbs_spec k.q
  order := by simp [taken, freed]
  partition := by simp [allocated]
  count := h₀

/-- A call that writes only to the ring, and to `p`. -/
theorem samePcb {q : Queues} {tree : Tree} {time : PcbPtr → Int} {supp : PcbPtr → Word} {n : Int}
    (h : PoolInv tr k free) (hfr : OnlyRing k.q q (p :: free)) (hx : x ∈ allocated tr) (hxp : x ≠ p)
    (htree : tree.pPrnt x = k.tree.pPrnt x ∧ tree.pChild x = k.tree.pChild x ∧
      tree.pNextSib x = k.tree.pNextSib x ∧ tree.pPrevSib x = k.tree.pPrevSib x)
    (htime : time x = k.pTime x) (hsupp : supp x = k.pSupportStruct x) :
    SamePcb k { k with
      q := q, tree := tree, pTime := time, pSupportStruct := supp, processCount := n } x := by
  have hdis : [x].Disjoint (p :: free) := by
    simpa using ⟨hxp, h.not_free hx⟩
  obtain ⟨hnext, hprev⟩ := hfr.links _ hdis x (by simp)
  obtain ⟨hprnt, hchild, hns, hps⟩ := htree
  exact ⟨hnext, hprev, congrFun hfr.pSemAdd x, hprnt, hchild, hns, hps, rfl, htime, hsupp⟩

/-- A call of `allocPcb`. -/
theorem alloc (h : PoolInv tr k free) : ∃ k', allocPcb k = some (free.head?, k') ∧
    (∀ p, free.head? = some p → p ∉ allocated tr ∧ Cleared k' p) ∧
    (∀ x ∈ allocated tr, SamePcb k k' x) ∧ PoolInv (tr ++ [.alloc free.head?]) k' free.tail := by
  cases free with
  | nil =>
      refine ⟨k, by simp [allocPcb, QueueOps.allocPcbRing, h.ring.allocPcbRing_nil], nofun,
        fun x _ => ⟨rfl, rfl, rfl, rfl, rfl, rfl, rfl, rfl, rfl, rfl⟩, h.ring, ?_, ?_, ?_⟩
      · simpa [taken, freed] using h.order
      · rw [allocated_concat]
        exact h.partition
      · rw [allocated_concat]
        exact h.count
  | cons p free =>
      obtain ⟨q', hq', hring, hfr⟩ := h.ring.allocPcbRing_spec
      have hfr' : OnlyRing k.q q' (p :: p :: free) :=
        { hfr with links := fun m hm => hfr.links m fun x hx hxf => hm hx (by simp_all) }
      have hp : p ∉ allocated tr := fun hp => h.not_free hp (by simp)
      have hne : ∀ {x}, x ∈ allocated tr → x ≠ p := fun hx e => hp (e ▸ hx)
      obtain ⟨hnext, hprev⟩ := allocPcbRing_cleared hq'
      refine ⟨_, by simp [allocPcb, QueueOps.allocPcbRing, hq']; rfl, ?_, fun x hx => ?_,
        hring, ?_, ?_, ?_⟩
      · intro r hr
        obtain rfl := Option.some.inj hr
        exact ⟨hp, hnext, hprev, Function.update_self .., Function.update_self ..,
          Function.update_self .., Function.update_self .., Function.update_self ..,
          Function.update_self ..⟩
      · refine h.samePcb hfr' hx (hne hx) ?_ (Function.update_of_ne (hne hx) ..)
          (Function.update_of_ne (hne hx) ..)
        simp [Tree.clear, Tree.setPrnt, Tree.setChild, Tree.setNextSib, Tree.setPrevSib, hne hx]
      · simpa [taken, freed] using h.order
      · rw [allocated_concat]
        refine List.Perm.trans ?_ h.partition
        simp only [List.head?_cons, PoolEvent.after, List.tail_cons, ← List.append_assoc]
        exact List.perm_append_comm.trans (by simp)
      · rw [allocated_concat]
        simp [PoolEvent.after, h.count]

/-- A call of `freePcb` for an allocated PCB. -/
theorem free_spec (h : PoolInv tr k free) (hp : p ∈ allocated tr) : ∃ k', freePcb k p = some k' ∧
    (∀ x ∈ allocated tr, x ≠ p → SamePcb k k' x) ∧
      PoolInv (tr ++ [.free p]) k' (free ++ [p]) := by
  have hpf := h.not_free hp
  obtain ⟨q', hq', hring, hfr⟩ := h.ring.freePcbRing_spec p
  have htake : free.takeWhile (· ≠ p) = free :=
    List.takeWhile_eq_self_iff.mpr fun y hy => by
      have hne : y ≠ p := fun e => hpf (e ▸ hy)
      simpa using hne
  rw [htake, decide_eq_false hpf] at hring
  refine ⟨_, by simp [freePcb, QueueOps.freePcbRing, hq']; rfl, fun x hx hxp => ?_, hring, ?_, ?_, ?_⟩
  · exact h.samePcb hfr hx hxp ⟨rfl, rfl, rfl, rfl⟩ rfl rfl
  · have := h.order
    simp_all [taken, freed, ← List.append_assoc]
  · rw [allocated_concat]
    refine List.Perm.trans ?_ h.partition
    rw [List.append_assoc]
    exact (List.perm_cons_erase hp).symm.append_left free
  · rw [allocated_concat]
    have hlen := List.length_erase_of_mem hp
    have hpos := List.length_pos_of_mem hp
    simp only [PoolEvent.after, hlen, h.count]
    omega

theorem elsewhere (h : PoolInv tr k free) (hk : PoolKept k k') : PoolInv tr k' free where
  ring := h.ring.congr hk.head (h.freeList_eq ▸ hk.links)
  order := h.order
  partition := h.partition
  count := hk.count.trans h.count

theorem ops (h : PoolInv tr k free) : PoolOps tr k := by
  have hfree := h.freeList_eq
  constructor
  case alloc =>
    obtain ⟨k', hk', hcleared, hsame, -⟩ := h.alloc
    rw [hfree]
    exact ⟨k', hk', hcleared, hsame⟩
  case null =>
    have hlen := h.partition.length_eq
    rw [List.length_append, List.length_finRange] at hlen
    rw [hfree, List.head?_eq_none_iff, ← List.length_eq_zero_iff]
    omega
  case free =>
    intro p hp
    obtain ⟨k', hk', hsame, -⟩ := h.free_spec hp
    exact ⟨k', hk', hsame⟩

end PoolInv

theorem PoolRun.inv {tr : List PoolEvent} {k : Kernel Queues} (h : PoolRun tr k) :
    ∃ free, PoolInv tr k free := by
  induction h with
  | init h₀ => exact ⟨_, .init h₀⟩
  | alloc _ hk ih =>
      obtain ⟨free, ih⟩ := ih
      obtain ⟨k', hk', -, -, h⟩ := ih.alloc
      obtain ⟨rfl, rfl⟩ := Prod.mk.inj (Option.some.inj (hk'.symm.trans hk))
      exact ⟨_, h⟩
  | free _ hp hk ih =>
      obtain ⟨free, ih⟩ := ih
      obtain ⟨k', hk', -, h⟩ := ih.free_spec hp
      obtain rfl := Option.some.inj (hk'.symm.trans hk)
      exact ⟨_, h⟩
  | elsewhere _ hk ih =>
      obtain ⟨free, ih⟩ := ih
      exact ⟨free, ih.elsewhere hk⟩

/-- The pool is a ring of the PCBs that are not allocated, first in, first out. -/
theorem pool_fifo {tr : List PoolEvent} {k : Kernel Queues} (h : PoolRun tr k) :
    PoolWf tr k ∧ PoolOps tr k := by
  obtain ⟨free, h⟩ := h.inv
  exact ⟨h.wf, h.ops⟩

/-- Three allocations, with a call of `freePcb` between the last two. -/
def poolScript : List PoolEvent := [.alloc (some 0), .alloc (some 1), .free 0, .alloc (some 2)]

theorem poolScript_run : ∃ k, PoolRun poolScript k := by
  have h₀ : PoolInv [] _ _ := .init (k := Memory.zero.powerOn) rfl
  obtain ⟨k₁, hk₁, -, -, h₁⟩ := h₀.alloc
  obtain ⟨k₂, hk₂, -, -, h₂⟩ := h₁.alloc
  obtain ⟨k₃, hk₃, -, h₃⟩ := h₂.free_spec (p := 0) (by decide +kernel)
  obtain ⟨k₄, hk₄, -, -, h₄⟩ := h₃.alloc
  have hrun := (((PoolRun.init (k := Memory.zero.powerOn) rfl).alloc hk₁).alloc hk₂).free
    (by decide +kernel) hk₃ |>.alloc hk₄
  have htr : ([] ++ [PoolEvent.alloc (List.finRange maxProc).head?] ++
      [PoolEvent.alloc (List.finRange maxProc).tail.head?] ++ [PoolEvent.free 0] ++
        [PoolEvent.alloc ((List.finRange maxProc).tail.tail ++ [0]).head?]) = poolScript := by
    decide +kernel
  exact ⟨k₄, htr ▸ hrun⟩

/-- The PCB that has been freed stands behind those that were never used. -/
theorem pool_fifo_script : ∃ k, PoolRun poolScript k ∧
    k.q.freeList = (List.finRange maxProc).drop 3 ++ [0] ∧ k.processCount = 2 ∧
      (k.q.freeList ++ [1, 2]).Perm (List.finRange maxProc) := by
  obtain ⟨k, hrun⟩ := poolScript_run
  obtain ⟨hwf, -⟩ := pool_fifo hrun
  have horder : [0, 1, 2] ++ k.q.freeList = List.finRange maxProc ++ [0] := hwf.order
  refine ⟨k, hrun, ?_, hwf.count, hwf.partition⟩
  have hdrop : k.q.freeList = (List.finRange maxProc ++ [0]).drop 3 := congrArg (List.drop 3) horder
  rw [hdrop]
  decide +kernel

end Pandos
