/-
# `Pandos.AslMap` — the active semaphore list as a map

From `initASL` on, through any calls of `insertBlocked`, `removeBlocked`,
`outBlocked` and `headBlocked`, the active semaphore list is a finite map
from addresses to queues that are not empty.  `blockedOn` reads the map off
the pointers, `Queues.AslWf` says how it is laid out and `Queues.AslOps`
what each operation does to it.

Between two calls anything may happen to PCBs that are not blocked
(`Elsewhere`).  A PCB is inserted only while it is not blocked; then one of
the `maxProc` descriptors is free, so that `insertBlocked` never fails, and
`blockCurrentProcessAt` may ignore its result.
-/
import Pandos.Script

namespace Pandos

open Intrusive

/-! ## Operations -/

/-- What the rest of the nucleus may do. -/
structure Elsewhere (q q' : Queues) : Prop where
  sNext : q'.sNext = q.sNext
  sSemAdd : q'.sSemAdd = q.sSemAdd
  sProcQ : q'.sProcQ = q.sProcQ
  semdFreeH : q'.semdFreeH = q.semdFreeH
  semdH : q'.semdH = q.semdH
  links : q.links.AgreeOn q'.links q.blockedList
  pSemAdd : ∀ p ∈ q.blockedList, q'.pSemAdd p = q.pSemAdd p

/-- The states the operations lead to. -/
inductive AslRun (q₀ : Queues) : Queues → Prop where
  | init : AslRun q₀ (initASL q₀)
  | insertBlocked {q q' s p b} : AslRun q₀ q → s ≠ 0 → s ≠ maxAdd → p ∉ q.blockedList →
      Pandos.insertBlocked q s p = some (b, q') → AslRun q₀ q'
  | removeBlocked {q q' s r} : AslRun q₀ q → s ≠ maxAdd →
      Pandos.removeBlocked q s = some (r, q') → AslRun q₀ q'
  | outBlocked {q q' p r} : AslRun q₀ q → Pandos.outBlocked q p = some (r, q') → AslRun q₀ q'
  | elsewhere {q q'} : AslRun q₀ q → Elsewhere q q' → AslRun q₀ q'

/-! ## The invariant -/

/-- `AslRep`, and a blocked PCB knows its semaphore. -/
structure AslInv (q : Queues) (blocked : Word → List PcbPtr) (act free : List SemdPtr) : Prop
    extends AslRep q blocked act free where
  addr : ∀ s, ∀ p ∈ blocked s, q.pSemAdd p = s

namespace AslRep

variable {q : Queues} {blocked : Word → List PcbPtr} {act free : List SemdPtr} {p : PcbPtr}
  {s : Word}

/-- The descriptor that is found need not be the one of `p_semAdd`, but `p`
is not in its queue either. -/
theorem outBlocked_not_mem (h : AslRep q blocked act free) (hp : ∀ s, p ∉ blocked s) :
    outBlocked q p = some (none, q) := by
  obtain ⟨k, tmp, l, hsplit, hfind, -, -, hnx⟩ := h.active.find (q.pSemAdd p)
  have hout : ∃ nx, q.sNext tmp = some nx ∧
      outProcQ q.links (q.sProcQ nx) p = some (none, q.links, q.sProcQ nx) := by
    cases l with
    | nil => exact ⟨1, hnx, by rw [h.upperQ]; rfl⟩
    | cons d l =>
        have hd : d ∈ act := h.active.mem_of_split hsplit d (by simp)
        exact ⟨d, hnx, outProcQ_not_mem (h.ring d hd) (hp _)⟩
  obtain ⟨nx, hnx, hout⟩ := hout
  simp [outBlocked, hfind, hnx, hout]

theorem headBlocked_eq (h : AslRep q blocked act free) (hmax : s ≠ maxAdd) :
    headBlocked q s = some (blocked s).head? := by
  cases hs : blocked s with
  | nil =>
      obtain ⟨k, tmp, l, nx, -, hfind, hnx, hne, -, -⟩ := h.active.find_absent (h.addr_ne hs) hmax
      simp [headBlocked, hfind, hnx, hne]
  | cons p l =>
      obtain ⟨d, hd, rfl⟩ := h.complete s (by simp [hs])
      obtain ⟨k, tmp, r, -, hfind, hnx⟩ := h.active.find_present hd
      have hring := h.ring d hd
      rw [hs] at hring
      obtain ⟨t, ht⟩ : ∃ t, q.sProcQ d = some t := by
        rw [← Option.ne_none_iff_exists', Ne, hring.eq_nil_iff]
        exact List.cons_ne_nil _ _
      rw [ht] at hring
      obtain ⟨m, -, hhead⟩ := hring.of_some
      simp [headBlocked, hfind, hnx, emptyProcQ, ht, headProcQ, hhead]

/-- Whether or not `p` is blocked, only a lack of descriptors is a failure. -/
theorem insertBlocked_true {q' : Queues} (h : AslRep q blocked act free) (hmax : s ≠ maxAdd) :
    insertBlocked q s p = some (true, q') ↔ q' = q ∧ blocked s = [] ∧ free = [] := by
  constructor
  · intro hins
    cases hs : blocked s with
    | nil =>
        cases free with
        | nil =>
            rw [h.insertBlocked_full p hmax hs] at hins
            exact ⟨(Prod.mk.inj (Option.some.inj hins)).2.symm, rfl, rfl⟩
        | cons d free =>
            obtain ⟨k, tmp, l, nx, -, hfind, hnx, hne, -, -⟩ :=
              h.active.find_absent (h.addr_ne hs) hmax
            simp [insertBlocked, hfind, hnx, hne, newSemd, h.unused.1, Option.bind_eq_some_iff] at hins
    | cons x l =>
        obtain ⟨d, hd, rfl⟩ := h.complete s (by simp [hs])
        obtain ⟨k, tmp, r, -, hfind, hnx⟩ := h.active.find_present hd
        simp [insertBlocked, hfind, hnx, Option.bind_eq_some_iff] at hins
  · rintro ⟨rfl, hs, rfl⟩
    exact h.insertBlocked_full p hmax hs

/-- There are `maxProc` descriptors besides the sentinels. -/
theorem length_eq (h : AslRep q blocked act free) : (act ++ free).length = maxProc := by
  have hset : (act ++ free).toFinset = (Finset.univ.erase (0 : SemdPtr)).erase 1 := by
    ext d
    simpa [and_comm] using h.cover d
  have hcard := congrArg Finset.card hset
  rwa [List.toFinset_card_of_nodup h.nodup] at hcard

theorem freeSemds_eq (h : AslRep q blocked act free) : q.freeSemds = free := by
  have hlen := h.length_eq
  rw [List.length_append] at hlen
  exact h.unused.walk_eq (by omega)

end AslRep

namespace AslInv

variable {q q' : Queues} {blocked : Word → List PcbPtr} {act free : List SemdPtr} {p : PcbPtr}
  {s : Word}

theorem apart (h : AslInv q blocked act free) : Apart blocked := fun s s' hne p hs hs' =>
  hne ((h.addr s p hs).symm.trans (h.addr s' p hs'))

theorem not_mem (h : AslInv q blocked act free) (hp : p ∉ q.blockedList) (s : Word) :
    p ∉ blocked s := fun hs => hp ((h.mem_blockedList p).mpr ⟨s, hs⟩)

theorem init (q : Queues) : ∃ free, AslInv (initASL q) (fun _ => []) [] free := by
  obtain ⟨⟨free, h⟩, -⟩ := initASL_spec q
  exact ⟨free, h, by simp⟩

/-- As long as some PCB is not blocked, there is a descriptor for it. -/
theorem insertBlocked (h : AslInv q blocked act free) (hs : s ≠ 0) (hmax : s ≠ maxAdd)
    (hp : ∀ s', p ∉ blocked s') :
    ∃ q' act' free', insertBlocked q s p = some (false, q') ∧
      AslInv q' (Function.update blocked s (blocked s ++ [p])) act' free' ∧
      q'.pSemAdd = Function.update q.pSemAdd p s := by
  obtain ⟨q', act', free', hq', hrep, hsem, -⟩ :=
    h.insertBlocked_spec h.apart hs hmax hp fun _ => h.room h.apart hp
  refine ⟨q', act', free', hq', ⟨hrep, ?_⟩, hsem⟩
  intro s' x hx
  rw [hsem]
  by_cases e : s' = s
  · subst e
    rw [Function.update_self] at hx
    rcases List.mem_append.mp hx with hx | hx
    · have hxp : x ≠ p := fun e => hp s' (e ▸ hx)
      rw [Function.update_of_ne hxp, h.addr s' x hx]
    · obtain rfl := List.mem_singleton.mp hx
      rw [Function.update_self]
  · rw [Function.update_of_ne e] at hx
    have hxp : x ≠ p := fun e => hp s' (e ▸ hx)
    rw [Function.update_of_ne hxp, h.addr s' x hx]

/-- `p`, which was in the queue of `s`, is in none now. -/
theorem of_removed {l : List PcbPtr} {act' free' : List SemdPtr} (h : AslInv q blocked act free)
    (hrep : AslRep q' (Function.update blocked s l) act' free')
    (hsem : q'.pSemAdd = Function.update q.pSemAdd p 0) (hp : p ∈ blocked s) (hpl : p ∉ l)
    (hsub : l ⊆ blocked s) : AslInv q' (Function.update blocked s l) act' free' := by
  refine ⟨hrep, fun s' x hx => ?_⟩
  have hx' : x ∈ blocked s' ∧ x ≠ p := by
    by_cases e : s' = s
    · subst e
      rw [Function.update_self] at hx
      exact ⟨hsub hx, fun e => hpl (e ▸ hx)⟩
    · rw [Function.update_of_ne e] at hx
      exact ⟨hx, fun e' => h.apart _ _ e hx (e' ▸ hp)⟩
  rw [hsem, Function.update_of_ne hx'.2, h.addr s' x hx'.1]

theorem removeBlocked {l : List PcbPtr} (h : AslInv q blocked act free)
    (hs : blocked s = p :: l) :
    ∃ q' act' free', removeBlocked q s = some (some p, q') ∧
      AslInv q' (Function.update blocked s l) act' free' ∧
      q'.pSemAdd = Function.update q.pSemAdd p 0 ∧ AslRep.Released q s act free l act' free' := by
  obtain ⟨q', act', free', hq', hrep, hsem, -, hrel⟩ := h.removeBlocked_spec h.apart hs
  obtain ⟨d, hd, rfl⟩ := h.complete s (by simp [hs])
  have hnd := (h.ring d hd).nodup
  rw [hs] at hnd
  exact ⟨q', act', free', hq', h.of_removed hrep hsem (by simp [hs]) (List.nodup_cons.mp hnd).1
    (by simp [hs]), hsem, hrel⟩

theorem outBlocked (h : AslInv q blocked act free) (hp : p ∈ blocked s) :
    ∃ q' act' free', outBlocked q p = some (some p, q') ∧
      AslInv q' (Function.update blocked s ((blocked s).erase p)) act' free' ∧
      q'.pSemAdd = Function.update q.pSemAdd p 0 ∧
      AslRep.Released q s act free ((blocked s).erase p) act' free' := by
  have hps := h.addr s p hp
  subst hps
  obtain ⟨q', act', free', hq', hrep, hsem, -, hrel⟩ := h.outBlocked_spec h.apart hp
  obtain ⟨d, hd, hds⟩ := h.complete (q.pSemAdd p) (List.ne_nil_of_mem hp)
  have hnd := hds ▸ (h.ring d hd).nodup
  exact ⟨q', act', free', hq', h.of_removed hrep hsem hp hnd.not_mem_erase List.erase_subset, hsem,
    hrel⟩

theorem elsewhere (h : AslInv q blocked act free) (he : Elsewhere q q') :
    AslInv q' blocked act free := by
  have hmem : ∀ s, ∀ p ∈ blocked s, p ∈ q.blockedList := fun s p hp =>
    (h.mem_blockedList p).mpr ⟨s, hp⟩
  constructor
  · exact h.congr he.sNext he.sSemAdd he.sProcQ he.semdFreeH he.semdH
      fun s p hp => he.links p (hmem s p hp)
  · intro s p hp
    rw [he.pSemAdd p (hmem s p hp), h.addr s p hp]

end AslInv

/-- Every operation keeps the invariant. -/
theorem AslRun.inv {q₀ q : Queues} (h : AslRun q₀ q) :
    ∃ blocked act free, AslInv q blocked act free := by
  induction h with
  | init =>
      obtain ⟨free, h⟩ := AslInv.init q₀
      exact ⟨_, _, free, h⟩
  | insertBlocked _ hs hmax hp hins ih =>
      obtain ⟨blocked, act, free, h⟩ := ih
      obtain ⟨q', act', free', hq', h', -⟩ := h.insertBlocked hs hmax (h.not_mem hp)
      obtain ⟨-, rfl⟩ := Prod.mk.inj (Option.some.inj (hq'.symm.trans hins))
      exact ⟨_, _, _, h'⟩
  | @removeBlocked q q' s r _ hmax hrem ih =>
      obtain ⟨blocked, act, free, h⟩ := ih
      cases hs : blocked s with
      | nil =>
          rw [h.removeBlocked_nil hmax hs] at hrem
          obtain ⟨-, rfl⟩ := Prod.mk.inj (Option.some.inj hrem)
          exact ⟨_, _, _, h⟩
      | cons p l =>
          obtain ⟨q'', act', free', hq'', h', -⟩ := h.removeBlocked hs
          obtain ⟨-, rfl⟩ := Prod.mk.inj (Option.some.inj (hq''.symm.trans hrem))
          exact ⟨_, _, _, h'⟩
  | @outBlocked q q' p r _ hout ih =>
      obtain ⟨blocked, act, free, h⟩ := ih
      by_cases hp : ∃ s, p ∈ blocked s
      · obtain ⟨s, hp⟩ := hp
        obtain ⟨q'', act', free', hq'', h', -⟩ := h.outBlocked hp
        obtain ⟨-, rfl⟩ := Prod.mk.inj (Option.some.inj (hq''.symm.trans hout))
        exact ⟨_, _, _, h'⟩
      · rw [h.outBlocked_not_mem (not_exists.mp hp)] at hout
        obtain ⟨-, rfl⟩ := Prod.mk.inj (Option.some.inj hout)
        exact ⟨_, _, _, h⟩
  | elsewhere _ he ih =>
      obtain ⟨blocked, act, free, h⟩ := ih
      exact ⟨_, _, _, h.elsewhere he⟩

/-! ## The map -/

namespace Queues

/-- The list from `semd_h`, with the sentinels. -/
def semds (q : Queues) : List SemdPtr := walk q.sNext (fun _ => false) (maxProc + 2) q.semdH

/-- How the map is laid out. -/
structure AslWf (q : Queues) : Prop where
  list : q.semds = 0 :: (q.activeSemds ++ [1])
  lower : q.sSemAdd 0 = 0
  upper : q.sSemAdd 1 = maxAdd
  sorted : q.activeSemds.Pairwise fun d d' => q.sSemAdd d < q.sSemAdd d'
  addresses : ∀ d ∈ q.activeSemds, q.sSemAdd d ≠ 0 ∧ q.sSemAdd d ≠ maxAdd
  queues : ∀ d ∈ q.activeSemds, IsRing q.links (q.sProcQ d) (q.blockedOn (q.sSemAdd d)) ∧
    q.blockedOn (q.sSemAdd d) ≠ []
  cover : ∀ d, d ∈ q.activeSemds ++ q.freeSemds ↔ d ≠ 0 ∧ d ≠ 1
  nodup : (q.activeSemds ++ q.freeSemds).Nodup

/-- A descriptor goes back to the free list when its queue becomes empty. -/
def Returns (q q' : Queues) (s : Word) : Prop :=
  ∀ d ∈ q.activeSemds, q.sSemAdd d = s →
    if q'.blockedOn s = [] then
      q'.freeSemds = d :: q.freeSemds ∧ q'.activeSemds = q.activeSemds.erase d
    else q'.freeSemds = q.freeSemds ∧ q'.activeSemds = q.activeSemds

/-- What the operations do to the map. -/
structure AslOps (q : Queues) : Prop where
  insert : ∀ s p, s ≠ 0 → s ≠ maxAdd → p ∉ q.blockedList →
    (q.blockedOn s ≠ [] ∨ q.activeSemds.length ≠ maxProc) →
    ∃ q', insertBlocked q s p = some (false, q') ∧
      q'.blockedOn = Function.update q.blockedOn s (q.blockedOn s ++ [p]) ∧
      q'.pSemAdd = Function.update q.pSemAdd p s
  insertFull : ∀ s p q', s ≠ maxAdd →
    (insertBlocked q s p = some (true, q') ↔
      q' = q ∧ q.blockedOn s = [] ∧ q.activeSemds.length = maxProc)
  remove : ∀ s p l, q.blockedOn s = p :: l →
    ∃ q', removeBlocked q s = some (some p, q') ∧
      q'.blockedOn = Function.update q.blockedOn s l ∧
      q'.pSemAdd = Function.update q.pSemAdd p 0 ∧ q.Returns q' s
  removeNobody : ∀ s, s ≠ maxAdd → q.blockedOn s = [] → removeBlocked q s = some (none, q)
  head : ∀ s, s ≠ maxAdd → headBlocked q s = some (q.blockedOn s).head?
  out : ∀ s p, p ∈ q.blockedOn s →
    ∃ q', outBlocked q p = some (some p, q') ∧
      q'.blockedOn = Function.update q.blockedOn s ((q.blockedOn s).erase p) ∧
      q'.pSemAdd = Function.update q.pSemAdd p 0 ∧ q.Returns q' s
  outNobody : ∀ p, p ∉ q.blockedList → outBlocked q p = some (none, q)

end Queues

namespace AslInv

variable {q q' : Queues} {blocked : Word → List PcbPtr} {act free act' free' : List SemdPtr}
  {s : Word}

theorem blockedOn (h : AslInv q blocked act free) : q.blockedOn = blocked :=
  funext h.blockedOn_eq

theorem wf (h : AslInv q blocked act free) : q.AslWf := by
  have hact := h.active.activeSemds_eq
  have hfree := h.freeSemds_eq
  have hlen : ((0 : SemdPtr) :: (act ++ [1])).length ≤ maxProc + 2 := by
    simpa using List.Nodup.length_le_card h.active.full_nodup
  constructor
  case list => rw [hact, Queues.semds, h.active.seg.walk_eq hlen]
  case lower => exact h.active.lower
  case upper => exact h.active.upper
  case sorted => rw [hact]; exact h.active.sorted
  case addresses => rw [hact]; exact h.active.inner
  case queues =>
    rw [hact, h.blockedOn]
    exact fun d hd => ⟨h.ring d hd, h.nonempty d hd⟩
  case cover => rw [hact, hfree]; exact h.cover
  case nodup => rw [hact, hfree]; exact h.nodup

theorem returns {l : List PcbPtr} (h : AslInv q blocked act free)
    (h' : AslInv q' (Function.update blocked s l) act' free')
    (hrel : AslRep.Released q s act free l act' free') : q.Returns q' s := by
  intro d hd hds
  rw [h.active.activeSemds_eq] at hd
  rw [h'.blockedOn, Function.update_self, h.freeSemds_eq, h'.freeSemds_eq,
    h.active.activeSemds_eq, h'.active.activeSemds_eq]
  cases hrel with
  | @empty d' hd' hds' hl =>
      obtain rfl := h.active.addr_inj hd hd' (hds.trans hds'.symm)
      rw [if_pos hl]
      exact ⟨rfl, rfl⟩
  | kept hl =>
      rw [if_neg hl]
      exact ⟨rfl, rfl⟩

theorem ops (h : AslInv q blocked act free) : q.AslOps := by
  have hb := h.blockedOn
  have hact := h.active.activeSemds_eq
  have hlen := h.length_eq
  rw [List.length_append] at hlen
  have hfull : act.length = maxProc ↔ free = [] := by
    rw [← List.length_eq_zero_iff]
    omega
  constructor
  case insert =>
    intro s p hs hmax hp _
    obtain ⟨q', act', free', hq', h', hsem⟩ := h.insertBlocked hs hmax (h.not_mem hp)
    exact ⟨q', hq', by rw [h'.blockedOn, hb], hsem⟩
  case insertFull =>
    intro s p q' hmax
    rw [h.insertBlocked_true hmax, hb, hact, hfull]
  case remove =>
    intro s p l hs
    rw [hb] at hs
    obtain ⟨q', act', free', hq', h', hsem, hrel⟩ := h.removeBlocked hs
    exact ⟨q', hq', by rw [h'.blockedOn, hb], hsem, h.returns h' hrel⟩
  case removeNobody =>
    intro s hmax hs
    exact h.removeBlocked_nil hmax (hb ▸ hs)
  case head =>
    intro s hmax
    rw [h.headBlocked_eq hmax, hb]
  case out =>
    intro s p hp
    rw [hb] at hp
    obtain ⟨q', act', free', hq', h', hsem, hrel⟩ := h.outBlocked hp
    exact ⟨q', hq', by rw [h'.blockedOn, hb], hsem, h.returns h' hrel⟩
  case outNobody =>
    intro p hp
    exact h.outBlocked_not_mem (h.not_mem hp)

end AslInv

/-- The active semaphore list refines the map. -/
theorem aslRun_refines_map {q₀ q : Queues} (h : AslRun q₀ q) : q.AslWf ∧ q.AslOps := by
  obtain ⟨blocked, act, free, h⟩ := h.inv
  exact ⟨h.wf, h.ops⟩

/-! ### A run -/

/-- `insertBlocked` where the map has a place for it. -/
def insertAsl (q : Queues) (s : Word) (p : PcbPtr) : Option Queues := do
  guard (s ≠ 0 ∧ s ≠ maxAdd ∧ p ∉ q.blockedList)
  let (_, q) ← insertBlocked q s p
  return q

theorem AslRun.insertAsl {q₀ q q' : Queues} {s : Word} {p : PcbPtr} (h : AslRun q₀ q)
    (hins : insertAsl q s p = some q') : AslRun q₀ q' := by
  obtain ⟨⟨hs, hmax, hp⟩, hins⟩ := Simulation.guard_bind_eq_some.mp hins
  obtain ⟨⟨b, q''⟩, hq'', hins⟩ := Option.bind_eq_some_iff.mp hins
  obtain rfl := Option.some.inj hins
  exact h.insertBlocked hs hmax hp hq''

/-- Two processes wait at an address above `maxAdd`, one below, and the first
leaves. -/
def aslScript (q : Queues) : Option Queues := do
  let q ← insertAsl (initASL q) 0x90000000 0
  let q ← insertAsl q 0x1000 1
  let q ← insertAsl q 0x90000000 2
  let (_, q) ← outBlocked q 0
  return q

theorem aslScript_run {q₀ q : Queues} (h : aslScript q₀ = some q) : AslRun q₀ q := by
  rw [aslScript] at h
  obtain ⟨q₁, h₁, h⟩ := Option.bind_eq_some_iff.mp h
  obtain ⟨q₂, h₂, h⟩ := Option.bind_eq_some_iff.mp h
  obtain ⟨q₃, h₃, h⟩ := Option.bind_eq_some_iff.mp h
  obtain ⟨⟨r, q₄⟩, h₄, h⟩ := Option.bind_eq_some_iff.mp h
  obtain rfl := Option.some.inj h
  exact (((AslRun.init.insertAsl h₁).insertAsl h₂).insertAsl h₃).outBlocked h₄

/-- What `aslScript` leaves. -/
theorem aslScript_final : ∃ q, aslScript Memory.zero.powerOn.q = some q ∧
    q.blockedOn 0x90000000 = [2] ∧ q.blockedOn 0x1000 = [1] ∧ 3 ∉ q.blockedList := by
  have hany : (aslScript Memory.zero.powerOn.q).any (fun q =>
      q.blockedOn 0x90000000 = [2] ∧ q.blockedOn 0x1000 = [1] ∧ 3 ∉ q.blockedList) = true := by
    decide +kernel
  cases hq : aslScript Memory.zero.powerOn.q with
  | none =>
      rw [hq] at hany
      exact nomatch hany
  | some q =>
      rw [hq] at hany
      exact ⟨q, rfl, of_decide_eq_true hany⟩

theorem aslRun_refines_map_script : ∃ q, AslRun Memory.zero.powerOn.q q ∧
    q.blockedOn 0x90000000 = [2] ∧ q.blockedOn 0x1000 = [1] ∧ q.AslWf ∧ q.AslOps := by
  obtain ⟨q, hq, h2, h1, -⟩ := aslScript_final
  exact ⟨q, aslScript_run hq, h2, h1, aslRun_refines_map (aslScript_run hq)⟩

/-! ## Blocking -/

theorem QRep.aslInv {q : Queues} {f : Fifos} (h : QRep q f) :
    ∃ act free, AslInv q f.blocked act free := by
  obtain ⟨act, free, hasl⟩ := h.asl
  refine ⟨act, free, hasl, fun s p hp => ?_⟩
  rw [h.pSemAdd]
  exact ((h.wf.mem_blocked p s).mp hp).1

/-- In every state the operations of the list lead to, and in every state the
nucleus reaches, a PCB that is not blocked can be blocked: `insertBlocked`
returns `FALSE`, and `blockCurrentProcessAt` leaves the process at the end of
the queue of the semaphore, and in no other queue. -/
theorem blockCurrentProcessAt_keeps {k : Kernel Queues} {s : Word} {p : PcbPtr}
    (h : (∃ q₀, AslRun q₀ k.q) ∨ Reachable k) (hs : s ≠ 0) (hmax : s ≠ maxAdd)
    (hp : p ∉ k.q.blockedList) :
    (∃ q', insertBlocked k.q s p = some (false, q')) ∧
      ∀ hw, ∃ k', blockCurrentProcessAt hw k s p = some k' ∧ k'.currentProcess = none ∧
        k'.blockedOn s = k.blockedOn s ++ [p] ∧ ∀ s', p ∈ k'.blockedOn s' ↔ s' = s := by
  obtain ⟨blocked, act, free, hinv⟩ : ∃ blocked act free, AslInv k.q blocked act free := by
    rcases h with ⟨q₀, h⟩ | h
    · exact h.inv
    · obtain ⟨c, hc⟩ := h.rep
      exact ⟨_, hc.queues.aslInv⟩
  obtain ⟨q', act', free', hq', hinv', -⟩ := hinv.insertBlocked hs hmax (hinv.not_mem hp)
  refine ⟨⟨q', hq'⟩, fun hw => ⟨{ k.addTime p (hw.stopT - k.startT) with
    q := q', currentProcess := none }, ?_, rfl, ?_, fun s' => ?_⟩⟩
  · show Option.bind (insertBlocked k.q s p) _ = _
    rw [hq']
    rfl
  · show q'.blockedOn s = k.q.blockedOn s ++ [p]
    rw [hinv'.blockedOn, hinv.blockedOn, Function.update_self]
  · show p ∈ q'.blockedOn s' ↔ s' = s
    rw [hinv'.blockedOn]
    by_cases e : s' = s
    · subst e
      simp
    · rw [Function.update_of_ne e]
      exact iff_of_false (hinv.not_mem hp s') e

theorem blockCurrentProcessAt_keeps_script : ∃ k : Kernel Queues,
    (∃ q₀, AslRun q₀ k.q) ∧ (∃ q', insertBlocked k.q 0x90000000 3 = some (false, q')) ∧
      ∃ k', blockCurrentProcessAt .zero k 0x90000000 3 = some k' ∧
        k'.blockedOn 0x90000000 = [2, 3] := by
  obtain ⟨q, hq, h2, -, h3⟩ := aslScript_final
  let k : Kernel Queues := { Memory.zero.powerOn with q := q }
  have hrun : ∃ q₀, AslRun q₀ k.q := ⟨_, aslScript_run hq⟩
  obtain ⟨hins, hblock⟩ :=
    blockCurrentProcessAt_keeps (.inl hrun) (by decide : (0x90000000 : Word) ≠ 0) (by decide) h3
  obtain ⟨k', hk', -, hlast, -⟩ := hblock .zero
  exact ⟨k, hrun, hins, k', hk', by rw [hlast]; exact congrArg (· ++ [3]) h2⟩

end Pandos
