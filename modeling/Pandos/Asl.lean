/-
# `Pandos.Asl` — the active semaphore list of `asl.c`

`Queues` is everything the queue code of the kernel links together: the link
fields and `p_semAdd` of the PCBs, the head of their free list, the tail of
the ready queue, and the semaphore descriptors.

    semd_h → 0 (lower sentinel) → d₁ → … → dₙ → 1 (upper sentinel) → NULL

`AslRep q blocked act free` says what the descriptors of `q` represent: the
active ones are `act`, in ascending order of `s_semAdd`, the queue of the one
at address `s` is the ring of the *list* `blocked s`, which is not empty, and
the remaining ones, `free`, are chained from `semdFree_h`.  The four
operations are then described on `blocked`:

    insertBlocked   blocked s := blocked s ++ [p]      (`insertBlocked_spec`)
    removeBlocked   blocked s := tail of blocked s     (`removeBlocked_spec`)
    outBlocked      blocked s := blocked s without p   (`outBlocked_spec`)

Addresses are compared unsigned, and the search stops at the upper sentinel
by *equality* with `MAXADD`, so addresses above `MAXADD` are kept in order in
front of it as well.
-/
import Mathlib.Data.BitVec
import Mathlib.Data.List.Pairwise
import Mathlib.Data.List.TakeWhile
import Pandos.Lib.Chain
import Pandos.ProcQ

namespace Pandos

open Intrusive

/-- The pointer structures of `pcb.c` and `asl.c`. -/
structure Queues where
  links : QLinks
  pSemAdd : PcbPtr → Word
  pcbFreeH : Option PcbPtr
  readyQueue : Option PcbPtr
  sNext : SemdPtr → Option SemdPtr
  sSemAdd : SemdPtr → Word
  sProcQ : SemdPtr → Option PcbPtr
  semdFreeH : Option SemdPtr
  semdH : Option SemdPtr

/-! ## The functions -/

/-- `initASL()`: descriptors `2, …, maxProc + 1` are pushed one by one. -/
def initASL (q : Queues) : Queues :=
  let q := { q with
    semdFreeH := none
    sNext := Function.update (Function.update q.sNext 0 (some 1)) 1 none
    sProcQ := Function.update (Function.update q.sProcQ 0 mkEmptyProcQ) 1 mkEmptyProcQ
    sSemAdd := Function.update (Function.update q.sSemAdd 0 0) 1 maxAdd
    semdH := some 0 }
  ((List.finRange (maxProc + 2)).drop 2).foldl (fun q i =>
    { q with semdFreeH := some i, sNext := Function.update q.sNext i q.semdFreeH }) q

/-- The loop of `findSemInActiveList`; it visits distinct descriptors or
never ends. -/
def findSemLoop (q : Queues) (semAdd : Word) : Nat → SemdPtr → Option SemdPtr
  | 0, _ => none
  | fuel + 1, tmp => do
      let nx ← q.sNext tmp
      if q.sSemAdd nx < semAdd ∧ q.sSemAdd nx ≠ maxAdd then findSemLoop q semAdd fuel nx
      else return tmp

def findSemInActiveList (q : Queues) (semAdd : Word) : Option SemdPtr := do
  let tmp ← q.semdH
  findSemLoop q semAdd (maxProc + 2) tmp

def newSemd (q : Queues) : Option SemdPtr × Queues :=
  match q.semdFreeH with
  | none => (none, q)
  | some tmp =>
      (some tmp, { q with
        semdFreeH := q.sNext tmp
        sNext := Function.update q.sNext tmp none
        sProcQ := Function.update q.sProcQ tmp mkEmptyProcQ
        sSemAdd := Function.update q.sSemAdd tmp 0 })

/-- Both branches of the source store the old head in `s_next`. -/
def freeSemd (q : Queues) (semd : SemdPtr) : Queues :=
  { q with semdFreeH := some semd, sNext := Function.update q.sNext semd q.semdFreeH }

/-- Appends `p` to the queue of the descriptor `d`. -/
def insertProcQAt (q : Queues) (d : SemdPtr) (p : PcbPtr) : Option Queues := do
  let (L, tp) ← insertProcQ q.links (q.sProcQ d) p
  return { q with links := L, sProcQ := Function.update q.sProcQ d tp }

/-- The result `true` (`TRUE`) is the failure. -/
def insertBlocked (q : Queues) (semAdd : Word) (p : PcbPtr) : Option (Bool × Queues) := do
  let tmp ← findSemInActiveList q semAdd
  let nx ← q.sNext tmp
  if q.sSemAdd nx = semAdd then
    let q := { q with pSemAdd := Function.update q.pSemAdd p semAdd }
    let q ← insertProcQAt q nx p
    return (false, q)
  else
    match newSemd q with
    | (none, q) => return (true, q)
    | (some newSem, q) =>
        let tmp ← findSemInActiveList q semAdd
        let q := { q with
          pSemAdd := Function.update q.pSemAdd p semAdd
          sSemAdd := Function.update q.sSemAdd newSem semAdd
          sProcQ := Function.update q.sProcQ newSem mkEmptyProcQ
          sNext := Function.update q.sNext newSem (q.sNext tmp) }
        let q := { q with sNext := Function.update q.sNext tmp (some newSem) }
        let q ← insertProcQAt q newSem p
        return (false, q)

/-- What `removeBlocked` and `outBlocked` do with the descriptor `nx` behind
`tmp` once its queue is empty. -/
def unlinkSemd (q : Queues) (tmp nx : SemdPtr) : Queues :=
  let q := { q with sNext := Function.update q.sNext tmp (q.sNext nx) }
  let q := { q with
    sNext := Function.update q.sNext nx none
    sSemAdd := Function.update q.sSemAdd nx 0
    sProcQ := Function.update q.sProcQ nx mkEmptyProcQ }
  freeSemd q nx

def removeBlocked (q : Queues) (semAdd : Word) : Option (Option PcbPtr × Queues) := do
  let tmp ← findSemInActiveList q semAdd
  let nx ← q.sNext tmp
  if q.sSemAdd nx = semAdd then
    let (removed, L, tp) ← removeProcQ q.links (q.sProcQ nx)
    let q := { q with links := L, sProcQ := Function.update q.sProcQ nx tp }
    let q := if emptyProcQ (q.sProcQ nx) then unlinkSemd q tmp nx else q
    let removed ← removed
    return (some removed, { q with pSemAdd := Function.update q.pSemAdd removed 0 })
  else
    return (none, q)

/-- The descriptor found is not compared with `p_semAdd`. -/
def outBlocked (q : Queues) (p : PcbPtr) : Option (Option PcbPtr × Queues) := do
  let tmp ← findSemInActiveList q (q.pSemAdd p)
  let nx ← q.sNext tmp
  let (released, L, tp) ← outProcQ q.links (q.sProcQ nx) p
  let q := { q with links := L, sProcQ := Function.update q.sProcQ nx tp }
  match released with
  | none => return (none, q)
  | some released =>
      let q := if emptyProcQ (q.sProcQ nx) then unlinkSemd q tmp nx else q
      return (some released, { q with pSemAdd := Function.update q.pSemAdd released 0 })

def headBlocked (q : Queues) (semAdd : Word) : Option (Option PcbPtr) := do
  let tmp ← findSemInActiveList q semAdd
  let nx ← q.sNext tmp
  if emptyProcQ (q.sProcQ nx) then return none
  else if q.sSemAdd nx ≠ semAdd then return none
  else return headProcQ q.links (q.sProcQ nx)

/-! ## What the descriptors represent -/

/-- The active list: between the sentinels, in ascending order of address. -/
structure ActiveList (q : Queues) (act : List SemdPtr) : Prop where
  seg : Seg q.sNext q.semdH (0 :: (act ++ [1])) none
  nodup : act.Nodup
  ne : ∀ d ∈ act, d ≠ 0 ∧ d ≠ 1
  lower : q.sSemAdd 0 = 0
  upper : q.sSemAdd 1 = maxAdd
  sorted : act.Pairwise fun a b => q.sSemAdd a < q.sSemAdd b
  inner : ∀ d ∈ act, q.sSemAdd d ≠ 0 ∧ q.sSemAdd d ≠ maxAdd

/-- The active descriptors `act` carry the queues `blocked`, and `free` are
the others. -/
structure AslRep (q : Queues) (blocked : Word → List PcbPtr) (act free : List SemdPtr) :
    Prop where
  active : ActiveList q act
  unused : Seg q.sNext q.semdFreeH free none
  nodup : (act ++ free).Nodup
  cover : ∀ d, d ∈ act ++ free ↔ d ≠ 0 ∧ d ≠ 1
  upperQ : q.sProcQ 1 = none
  ring : ∀ d ∈ act, IsRing q.links (q.sProcQ d) (blocked (q.sSemAdd d))
  nonempty : ∀ d ∈ act, blocked (q.sSemAdd d) ≠ []
  complete : ∀ s, blocked s ≠ [] → ∃ d ∈ act, q.sSemAdd d = s

namespace ActiveList

variable {q q' : Queues} {act : List SemdPtr}

theorem full_nodup (h : ActiveList q act) : ((0 : SemdPtr) :: (act ++ [1])).Nodup := by
  refine List.nodup_cons.mpr ⟨?_, List.nodup_append.mpr ⟨h.nodup, by simp, ?_⟩⟩
  · intro h0
    rcases List.mem_append.mp h0 with h0 | h0
    · exact (h.ne 0 h0).1 rfl
    · exact absurd h0 (by decide)
  · intro a ha b hb e
    obtain rfl : b = 1 := by simpa using hb
    exact (h.ne a ha).2 e

theorem not_mem_full {d : SemdPtr} (hd : d ≠ 0 ∧ d ≠ 1) (hact : d ∉ act) :
    d ∉ (0 : SemdPtr) :: (act ++ [1]) := by
  simp only [List.mem_cons, List.mem_append, List.not_mem_nil, or_false, not_or]
  exact ⟨hd.1, hact, hd.2⟩

/-- The active list reads the links and addresses of its members only. -/
theorem congr (h : ActiveList q act) (hH : q'.semdH = q.semdH)
    (hn : ∀ d ∈ (0 : SemdPtr) :: (act ++ [1]), q'.sNext d = q.sNext d)
    (ha : ∀ d ∈ (0 : SemdPtr) :: (act ++ [1]), q'.sSemAdd d = q.sSemAdd d) :
    ActiveList q' act := by
  have hact : ∀ d ∈ act, q'.sSemAdd d = q.sSemAdd d := fun d hd =>
    ha d (List.mem_cons_of_mem _ (List.mem_append_left _ hd))
  refine ⟨hH ▸ h.seg.congr hn, h.nodup, h.ne, (ha 0 (by simp)).trans h.lower,
    (ha 1 (by simp)).trans h.upper, ?_, ?_⟩
  · refine h.sorted.imp_of_mem ?_
    intro a b hal hbl hab
    rwa [hact a hal, hact b hbl]
  · intro d hd
    rw [hact d hd]
    exact h.inner d hd

theorem addr_inj (h : ActiveList q act) {d d' : SemdPtr} (hd : d ∈ act) (hd' : d' ∈ act)
    (e : q.sSemAdd d = q.sSemAdd d') : d = d' := by
  by_contra hne
  obtain ⟨i, hi, rfl⟩ := List.getElem_of_mem hd
  obtain ⟨j, hj, rfl⟩ := List.getElem_of_mem hd'
  have hs := List.pairwise_iff_getElem.mp h.sorted
  rcases Nat.lt_trichotomy i j with hij | rfl | hij
  · exact absurd e (BitVec.ne_of_lt (hs i j hi hj hij))
  · exact hne rfl
  · exact absurd e.symm (BitVec.ne_of_lt (hs j i hj hi hij))

/-! ### The search -/

theorem findSemLoop_spec {s : Word} : ∀ {l : List SemdPtr} {a b : SemdPtr} {fuel : Nat}
    {r : List SemdPtr}, Seg q.sNext (some a) (a :: (l ++ b :: r)) none →
      (∀ d ∈ l, q.sSemAdd d < s ∧ q.sSemAdd d ≠ maxAdd) →
      ¬ (q.sSemAdd b < s ∧ q.sSemAdd b ≠ maxAdd) → l.length < fuel →
      ∃ k tmp, a :: l = k ++ [tmp] ∧ findSemLoop q s fuel a = some tmp ∧ q.sNext tmp = some b
  | _, _, _, 0, _, _, _, _, hf => absurd hf (Nat.not_lt_zero _)
  | [], a, b, fuel + 1, r, hs, _, hb, _ => by
      have hn : q.sNext a = some b := hs.2.1
      refine ⟨[], a, rfl, ?_, hn⟩
      simp only [findSemLoop, hn, Option.bind_eq_bind, Option.bind_some, if_neg hb]
      rfl
  | c :: l, a, b, fuel + 1, r, hs, hl, hb, hf => by
      have hn : q.sNext a = some c := hs.2.1
      have hs' : Seg q.sNext (some c) (c :: (l ++ b :: r)) none := hn ▸ hs.2
      obtain ⟨k, tmp, hk, hfind, hnx⟩ := @findSemLoop_spec s l c b fuel r hs'
        (fun d hd => hl d (List.mem_cons_of_mem _ hd)) hb (by simpa using hf)
      refine ⟨a :: k, tmp, by rw [hk]; rfl, ?_, hnx⟩
      simp only [findSemLoop, hn, Option.bind_eq_bind, Option.bind_some,
        if_pos (hl c (by simp))]
      exact hfind

/-- The search stops in front of the first descriptor that is not below `s`. -/
theorem find (h : ActiveList q act) (s : Word) :
    ∃ k tmp l, (0 : SemdPtr) :: act = k ++ tmp :: l ∧ findSemInActiveList q s = some tmp ∧
      (∀ d ∈ act, q.sSemAdd d < s ↔ d ∈ k ++ [tmp]) ∧ (∀ d ∈ l, ¬ q.sSemAdd d < s) ∧
      q.sNext tmp = (l ++ [1]).head? := by
  let below : SemdPtr → Bool := fun d => decide (q.sSemAdd d < s)
  have hsplit : act.takeWhile below ++ act.dropWhile below = act := List.takeWhile_append_dropWhile
  have hlow : ∀ d ∈ act.takeWhile below, q.sSemAdd d < s := fun d hd => by
    simpa [below] using List.mem_takeWhile_imp hd
  have hhigh : ∀ d ∈ act.dropWhile below, ¬ q.sSemAdd d < s := by
    intro d hd
    cases hw : act.dropWhile below with
    | nil => simp [hw] at hd
    | cons b r =>
        have hb : ¬ q.sSemAdd b < s := by
          have := List.head_dropWhile_not below (l := act) (by simp [hw])
          simpa [hw, below] using this
        have hsort := h.sorted
        rw [← hsplit, hw] at hsort
        have hr := (List.pairwise_cons.mp (List.pairwise_append.mp hsort).2.1).1
        rw [hw] at hd
        rcases List.mem_cons.mp hd with rfl | hd
        · exact hb
        · intro hds
          exact hb (BitVec.lt_trans (hr d hd) hds)
  obtain ⟨b, r, hbr⟩ : ∃ b r, act.dropWhile below ++ [1] = b :: r :=
    List.exists_cons_of_ne_nil (by simp)
  have hseg : Seg q.sNext q.semdH (0 :: (act.takeWhile below ++ b :: r)) none := by
    rw [← hbr, ← List.append_assoc, hsplit]
    exact h.seg
  have hbstop : ¬ (q.sSemAdd b < s ∧ q.sSemAdd b ≠ maxAdd) := by
    cases hw : act.dropWhile below with
    | nil =>
        rw [hw] at hbr
        obtain rfl : (1 : SemdPtr) = b := by simpa using congrArg List.head? hbr
        exact fun hb => hb.2 h.upper
    | cons c r' =>
        rw [hw] at hbr
        obtain rfl : c = b := by simpa using congrArg List.head? hbr
        exact fun hb => hhigh c (by simp [hw]) hb.1
  have hlen : (act.takeWhile below).length < maxProc + 2 := by
    have h1 : (act.takeWhile below).Nodup :=
      (h.nodup).sublist (List.takeWhile_sublist below)
    have h2 : ((0 : SemdPtr) :: act.takeWhile below).Nodup :=
      List.nodup_cons.mpr ⟨fun h0 =>
        (h.ne 0 (List.takeWhile_subset below h0)).1 rfl, h1⟩
    have := List.Nodup.length_le_card h2
    simp at this
    omega
  obtain ⟨k, tmp, hk, hfind, hnx⟩ := @findSemLoop_spec q s _ 0 b (maxProc + 2) r
    (hseg.1 ▸ hseg) (fun d hd => ⟨hlow d hd, (h.inner d (List.takeWhile_subset below hd)).2⟩)
    hbstop hlen
  refine ⟨k, tmp, act.dropWhile below, ?_, ?_, ?_, hhigh, ?_⟩
  · calc (0 : SemdPtr) :: act = (0 :: act.takeWhile below) ++ act.dropWhile below := by
          rw [List.cons_append, hsplit]
      _ = k ++ tmp :: act.dropWhile below := by rw [hk]; simp
  · simp [findSemInActiveList, hseg.1, hfind]
  · intro d hd
    rw [← hk]
    constructor
    · intro hds
      rw [← hsplit] at hd
      rcases List.mem_append.mp hd with hd | hd
      · exact List.mem_cons_of_mem _ hd
      · exact absurd hds (hhigh d hd)
    · intro hdk
      rcases List.mem_cons.mp hdk with rfl | hdk
      · exact absurd rfl (h.ne 0 hd).1
      · exact hlow d hdk
  · rw [hnx, hbr]; rfl

/-- An active address is found one descriptor early. -/
theorem find_present (h : ActiveList q act) {d : SemdPtr} (hd : d ∈ act) :
    ∃ k tmp l, (0 : SemdPtr) :: act = k ++ tmp :: d :: l ∧
      findSemInActiveList q (q.sSemAdd d) = some tmp ∧ q.sNext tmp = some d := by
  obtain ⟨k, tmp, l, hsplit, hfind, hlow, hhigh, hnx⟩ := h.find (q.sSemAdd d)
  have hdl : d ∈ l := by
    have hdk : d ∉ k ++ [tmp] := fun hdk => absurd ((hlow d hd).mpr hdk) (BitVec.lt_irrefl _)
    have : d ∈ (k ++ [tmp]) ++ l := by
      have hm : d ∈ (0 : SemdPtr) :: act := List.mem_cons_of_mem _ hd
      rw [hsplit] at hm
      simpa using hm
    exact (List.mem_append.mp this).resolve_left hdk
  cases l with
  | nil => simp at hdl
  | cons b l =>
      obtain rfl : b = d := by
        by_contra hbd
        have hdl' : d ∈ l := (List.mem_cons.mp hdl).resolve_left (Ne.symm hbd)
        -- `b` stands in front of `d` in a sorted list, and yet not below it
        have hsub : (b :: l).Sublist act := by
          have h1 : (b :: l).Sublist ((0 : SemdPtr) :: act) := by
            rw [hsplit]
            exact (List.sublist_cons_self _ _).trans (List.sublist_append_right _ _)
          cases h1 with
          | cons _ h1 => exact h1
          | cons_cons _ h1 =>
              exfalso
              have := h.full_nodup
              rw [← List.cons_append, hsplit] at this
              cases k <;> simp_all
        have := (List.pairwise_cons.mp (h.sorted.sublist hsub)).1 d hdl'
        exact hhigh b (by simp) this
      exact ⟨k, tmp, l, hsplit, hfind, by simpa using hnx⟩

theorem mem_of_split (h : ActiveList q act) {k l : List SemdPtr} {tmp : SemdPtr}
    (hsplit : (0 : SemdPtr) :: act = k ++ tmp :: l) : ∀ d ∈ l, d ∈ act := by
  intro d hd
  have hm : d ∈ (0 : SemdPtr) :: act := by rw [hsplit]; simp [hd]
  refine (List.mem_cons.mp hm).resolve_left ?_
  rintro rfl
  have := h.full_nodup
  rw [← List.cons_append, hsplit] at this
  cases k <;> simp_all

/-- For an address that is not active the search stops in front of a larger
one, or of the upper sentinel. -/
theorem find_absent (h : ActiveList q act) {s : Word} (hs : ∀ d ∈ act, q.sSemAdd d ≠ s)
    (hmax : s ≠ maxAdd) :
    ∃ k tmp l nx, (0 : SemdPtr) :: act = k ++ tmp :: l ∧ findSemInActiveList q s = some tmp ∧
      q.sNext tmp = some nx ∧ q.sSemAdd nx ≠ s ∧
      (∀ d ∈ act, d ∈ k ++ [tmp] → q.sSemAdd d < s) ∧ (∀ d ∈ l, s < q.sSemAdd d) := by
  obtain ⟨k, tmp, l, hsplit, hfind, hlow, hhigh, hnx⟩ := h.find s
  have hl := h.mem_of_split hsplit
  refine ⟨k, tmp, l, (l ++ [1]).head (by simp), hsplit, hfind, ?_, ?_,
    fun d hd hdk => (hlow d hd).mpr hdk, ?_⟩
  · rw [hnx, List.head?_eq_some_head]
  · cases l with
    | nil => simpa [h.upper] using Ne.symm hmax
    | cons b l => exact hs b (hl b (by simp))
  · intro d hd
    have h1 := hhigh d hd
    have h2 := hs d (hl d hd)
    rw [BitVec.not_lt] at h1
    exact BitVec.lt_of_le_ne h1 (Ne.symm h2)

end ActiveList

/-! ## Changes to the represented queues -/

/-- Distinct semaphores have disjoint queues. -/
def Apart (blocked : Word → List PcbPtr) : Prop :=
  ∀ s s', s ≠ s' → (blocked s).Disjoint (blocked s')

namespace AslRep

variable {q q' : Queues} {blocked : Word → List PcbPtr} {act free : List SemdPtr}

theorem free_not_mem (h : AslRep q blocked act free) {d : SemdPtr} (hd : d ∈ free) :
    d ∉ act ∧ d ∉ (0 : SemdPtr) :: (act ++ [1]) := by
  have hact : d ∉ act := fun ha => (List.nodup_append.mp h.nodup).2.2 d ha d hd rfl
  exact ⟨hact, ActiveList.not_mem_full ((h.cover d).mp (List.mem_append_right _ hd)) hact⟩

/-- The other pointer structures may change, as long as no blocked PCB is
relinked. -/
theorem congr (h : AslRep q blocked act free) (hN : q'.sNext = q.sNext)
    (hA : q'.sSemAdd = q.sSemAdd) (hQ : q'.sProcQ = q.sProcQ) (hF : q'.semdFreeH = q.semdFreeH)
    (hH : q'.semdH = q.semdH) (hL : ∀ s, q.links.AgreeOn q'.links (blocked s)) :
    AslRep q' blocked act free := by
  refine ⟨h.active.congr hH (fun d _ => by rw [hN]) (fun d _ => by rw [hA]),
    by rw [hN, hF]; exact h.unused, h.nodup, h.cover, by rw [hQ]; exact h.upperQ, ?_, ?_, ?_⟩
  · intro d hd
    rw [hA, hQ]
    exact (h.ring d hd).congr (hL _)
  · intro d hd
    rw [hA]
    exact h.nonempty d hd
  · intro s hs
    rw [hA]
    exact h.complete s hs

/-- The queue of one active semaphore is replaced by another, not empty. -/
theorem set_queue (h : AslRep q blocked act free) {d : SemdPtr} (hd : d ∈ act) {L : QLinks}
    {tp : Option PcbPtr} {l : List PcbPtr} (hring : IsRing L tp l) (hne : l ≠ [])
    (hframe : ∀ s, s ≠ q.sSemAdd d → q.links.AgreeOn L (blocked s)) :
    AslRep { q with links := L, sProcQ := Function.update q.sProcQ d tp }
      (Function.update blocked (q.sSemAdd d) l) act free := by
  have hother : ∀ d' ∈ act, d' ≠ d → q.sSemAdd d' ≠ q.sSemAdd d := fun d' hd' hne e =>
    hne (h.active.addr_inj hd' hd e)
  refine ⟨h.active.congr rfl (fun _ _ => rfl) (fun _ _ => rfl), h.unused, h.nodup, h.cover,
    ?_, ?_, ?_, ?_⟩
  · rw [← h.upperQ]
    exact Function.update_of_ne (h.active.ne d hd).2.symm _ _
  · intro d' hd'
    by_cases e : d' = d
    · subst e
      simpa using hring
    · simp only [Function.update_of_ne e, Function.update_of_ne (hother d' hd' e)]
      exact (h.ring d' hd').congr (hframe _ (hother d' hd' e))
  · intro d' hd'
    by_cases e : d' = d
    · subst e
      simpa using hne
    · simp only [Function.update_of_ne (hother d' hd' e)]
      exact h.nonempty d' hd'
  · intro s hs
    by_cases e : s = q.sSemAdd d
    · exact ⟨d, hd, e.symm⟩
    · rw [Function.update_of_ne e] at hs
      exact h.complete s hs

/-- The queue of an active semaphore has become empty: its descriptor goes
to the front of the free list. -/
theorem drop (h : AslRep q blocked act free) {k l : List SemdPtr} {tmp d : SemdPtr}
    (hsplit : (0 : SemdPtr) :: act = k ++ tmp :: d :: l) {L : QLinks}
    (hframe : ∀ s, s ≠ q.sSemAdd d → q.links.AgreeOn L (blocked s)) :
    AslRep (unlinkSemd { q with links := L, sProcQ := Function.update q.sProcQ d none } tmp d)
      (Function.update blocked (q.sSemAdd d) []) (act.erase d) (d :: free) := by
  have hd0 : d ∈ (0 : SemdPtr) :: act := by rw [hsplit]; simp
  have hnd0 := h.active.full_nodup
  have hnd : ((0 : SemdPtr) :: act).Nodup := by
    rw [← List.cons_append] at hnd0
    exact (List.nodup_append.mp hnd0).1
  have hd_ne : d ≠ 0 := by
    rintro rfl
    rw [hsplit] at hnd
    cases k <;> simp_all
  have hd : d ∈ act := (List.mem_cons.mp hd0).resolve_left hd_ne
  have hdk : d ∉ k ++ [tmp] := by
    have hn : ((k ++ [tmp]) ++ d :: l).Nodup := by rw [hsplit] at hnd; simpa using hnd
    exact fun e => (List.nodup_append.mp hn).2.2 d e d (by simp) rfl
  have herase : (0 : SemdPtr) :: act.erase d = k ++ tmp :: l := by
    rw [← List.erase_cons_tail (by simpa using Ne.symm hd_ne), hsplit]
    have : k ++ tmp :: d :: l = (k ++ [tmp]) ++ d :: l := by simp
    rw [this, List.erase_append_right _ hdk]
    simp
  have hnot : d ∉ act.erase d := fun e => (h.active.nodup.not_mem_erase e)
  have hsub : ∀ d' ∈ act.erase d, d' ∈ act ∧ d' ≠ d := fun d' hd' =>
    ⟨List.mem_of_mem_erase hd', fun e => hnot (e ▸ hd')⟩
  have hdfull : d ∉ (0 : SemdPtr) :: (act.erase d ++ [1]) :=
    ActiveList.not_mem_full (h.active.ne d hd) hnot
  have haddr : ∀ d' ∈ act.erase d, Function.update q.sSemAdd d 0 d' = q.sSemAdd d' :=
    fun d' hd' => Function.update_of_ne (hsub d' hd').2 _ _
  have hother : ∀ d' ∈ act.erase d, q.sSemAdd d' ≠ q.sSemAdd d := fun d' hd' e =>
    (hsub d' hd').2 (h.active.addr_inj (hsub d' hd').1 hd e)
  have hdfree : d ∉ free := fun e => (h.free_not_mem e).1 hd
  have htmpfree : tmp ∉ free := by
    intro e
    have : tmp ∈ (0 : SemdPtr) :: act := by rw [hsplit]; simp
    rcases List.mem_cons.mp this with e0 | e0
    · exact ((h.cover tmp).mp (List.mem_append_right _ e)).1 e0
    · exact (h.free_not_mem e).1 e0
  refine ⟨⟨?_, h.active.nodup.erase d, fun d' hd' => h.active.ne d' (hsub d' hd').1, ?_, ?_, ?_,
    ?_⟩, ?_, ?_, ?_, ?_, ?_, ?_, ?_⟩
  · -- the list closes over `d`, and the writes to `d` itself are not seen
    have hseg := h.active.seg
    have e1 : (0 : SemdPtr) :: (act ++ [1]) = k ++ tmp :: d :: (l ++ [1]) := by
      rw [← List.cons_append, hsplit]; simp
    have e2 : (0 : SemdPtr) :: (act.erase d ++ [1]) = k ++ tmp :: (l ++ [1]) := by
      rw [← List.cons_append, herase]; simp
    rw [e1] at hseg hnd0
    have := hseg.remove_after hnd0
    rw [← e2] at this
    exact (this.update_of_not_mem hdfull).update_of_not_mem hdfull
  · show Function.update q.sSemAdd d 0 0 = 0
    rw [Function.update_of_ne hd_ne.symm]
    exact h.active.lower
  · show Function.update q.sSemAdd d 0 1 = maxAdd
    rw [Function.update_of_ne (h.active.ne d hd).2.symm]
    exact h.active.upper
  · refine (h.active.sorted.sublist List.erase_sublist).imp_of_mem ?_
    intro a b ha hb hab
    show Function.update q.sSemAdd d 0 a < Function.update q.sSemAdd d 0 b
    rwa [haddr a ha, haddr b hb]
  · intro d' hd'
    show Function.update q.sSemAdd d 0 d' ≠ 0 ∧ Function.update q.sSemAdd d 0 d' ≠ maxAdd
    rw [haddr d' hd']
    exact h.active.inner d' (hsub d' hd').1
  · have hfree := h.unused.update_of_not_mem (v := q.sNext d) htmpfree
    exact (hfree.update_of_not_mem hdfree).push hdfree
  · refine List.nodup_append.mpr ⟨h.active.nodup.erase d,
      List.nodup_cons.mpr ⟨hdfree, (List.nodup_append.mp h.nodup).2.1⟩, ?_⟩
    intro a ha b hb e
    subst e
    rcases List.mem_cons.mp hb with rfl | hb
    · exact hnot ha
    · exact (h.free_not_mem hb).1 (hsub a ha).1
  · intro d'
    rw [← h.cover d']
    simp only [List.mem_append, List.mem_cons]
    by_cases e : d' = d
    · subst e; simp [hd]
    · simp [e, List.mem_erase_of_ne e]
  · show Function.update (Function.update q.sProcQ d none) d mkEmptyProcQ 1 = none
    rw [Function.update_of_ne (h.active.ne d hd).2.symm,
      Function.update_of_ne (h.active.ne d hd).2.symm]
    exact h.upperQ
  · intro d' hd'
    have hne := (hsub d' hd').2
    show IsRing L (Function.update (Function.update q.sProcQ d none) d mkEmptyProcQ d')
      (Function.update blocked (q.sSemAdd d) [] (Function.update q.sSemAdd d 0 d'))
    rw [haddr d' hd', Function.update_of_ne hne, Function.update_of_ne hne,
      Function.update_of_ne (hother d' hd')]
    exact (h.ring d' (hsub d' hd').1).congr (hframe _ (hother d' hd'))
  · intro d' hd'
    show Function.update blocked (q.sSemAdd d) [] (Function.update q.sSemAdd d 0 d') ≠ []
    rw [haddr d' hd', Function.update_of_ne (hother d' hd')]
    exact h.nonempty d' (hsub d' hd').1
  · intro s hs
    by_cases e : s = q.sSemAdd d
    · simp [e] at hs
    · rw [Function.update_of_ne e] at hs
      obtain ⟨d', hd', rfl⟩ := h.complete s hs
      have hne : d' ≠ d := fun e' => e (by rw [e'])
      exact ⟨d', (List.mem_erase_of_ne hne).mpr hd', Function.update_of_ne hne _ _⟩

/-- A descriptor is taken from the free list and hooked in at address `s`,
with the queue `l`. -/
theorem add {d : SemdPtr} (h : AslRep q blocked act (d :: free)) {k l : List SemdPtr}
    {tmp : SemdPtr} {s : Word} (hsplit : (0 : SemdPtr) :: act = k ++ tmp :: l) (hs0 : s ≠ 0)
    (hmax : s ≠ maxAdd)
    (habs : ∀ d ∈ act, q.sSemAdd d ≠ s) (hlow : ∀ d ∈ act, d ∈ k ++ [tmp] → q.sSemAdd d < s)
    (hhigh : ∀ d ∈ l, s < q.sSemAdd d) {L : QLinks} {tp : Option PcbPtr} {m : List PcbPtr}
    (hring : IsRing L tp m) (hne : m ≠ [])
    (hframe : ∀ s', s' ≠ s → q.links.AgreeOn L (blocked s')) :
    ∃ act', AslRep { q with
        links := L
        semdFreeH := q.sNext d
        sNext := Function.update (Function.update (Function.update q.sNext d none) d
          (Function.update q.sNext d none tmp)) tmp (some d)
        sSemAdd := Function.update (Function.update q.sSemAdd d 0) d s
        sProcQ := Function.update (Function.update (Function.update q.sProcQ d none) d none) d tp }
      (Function.update blocked s m) act' free := by
  obtain ⟨A, hA⟩ : ∃ A, k ++ [tmp] = 0 :: A := by
    cases k with
    | nil => exact ⟨[], by simpa using congrArg (·.head?) hsplit.symm⟩
    | cons b k => exact ⟨k ++ [tmp], by simpa using congrArg (·.head?) hsplit.symm⟩
  have hact : act = A ++ l := by
    have : (0 : SemdPtr) :: act = (k ++ [tmp]) ++ l := by rw [hsplit]; simp
    rw [hA] at this
    exact (List.cons.inj this).2
  subst hact
  obtain ⟨hdact, hdfull⟩ := h.free_not_mem (d := d) (by simp)
  have hdne := (h.cover d).mp (by simp)
  have hdfree : d ∉ free := (List.nodup_cons.mp (List.nodup_append.mp h.nodup).2.1).1
  have hdA : d ∉ A := fun e => hdact (List.mem_append_left _ e)
  have hdl : d ∉ l := fun e => hdact (List.mem_append_right _ e)
  have hmem : ∀ d', d' ∈ A ++ d :: l ↔ d' = d ∨ d' ∈ A ++ l := by
    intro d'; simp only [List.mem_append, List.mem_cons]; tauto
  have hne' : ∀ d' ∈ A ++ l, d' ≠ d := fun d' hd' e => hdact (e ▸ hd')
  have haddr : ∀ d' ∈ A ++ l, Function.update (Function.update q.sSemAdd d 0) d s d'
      = q.sSemAdd d' := fun d' hd' => by
    rw [Function.update_of_ne (hne' d' hd'), Function.update_of_ne (hne' d' hd')]
  have hlt : ∀ a ∈ A ++ l, ∀ b ∈ A ++ l, q.sSemAdd a < q.sSemAdd b →
      Function.update (Function.update q.sSemAdd d 0) d s a
        < Function.update (Function.update q.sSemAdd d 0) d s b := fun a ha b hb hab => by
    rwa [haddr a ha, haddr b hb]
  have hlowA : ∀ d' ∈ A, q.sSemAdd d' < s := fun d' hd' =>
    hlow d' (List.mem_append_left _ hd') (by rw [hA]; exact List.mem_cons_of_mem _ hd')
  have htmpfree : tmp ∉ free := by
    intro e
    have : tmp ∈ (0 : SemdPtr) :: A := by rw [← hA]; simp
    rcases List.mem_cons.mp this with e0 | e0
    · exact ((h.cover tmp).mp (by simp [e])).1 e0
    · exact (h.free_not_mem (List.mem_cons_of_mem _ e)).1 (List.mem_append_left _ e0)
  have hfull : (0 : SemdPtr) :: (A ++ l ++ [1]) = k ++ tmp :: (l ++ [1]) := by
    have : (0 : SemdPtr) :: (A ++ l ++ [1]) = (0 :: A) ++ (l ++ [1]) := by simp
    rw [this, ← hA]; simp
  refine ⟨A ++ d :: l, ⟨?_, ?_, ?_, ?_, ?_, ?_, ?_⟩, ?_, ?_, ?_, ?_, ?_, ?_, ?_⟩
  · have hseg := h.active.seg.update_of_not_mem (v := none) hdfull
    have hnd := h.active.full_nodup
    rw [hfull] at hseg hnd hdfull
    have := hseg.insert_after hnd hdfull
    have e2 : (0 : SemdPtr) :: (A ++ d :: l ++ [1]) = k ++ tmp :: d :: (l ++ [1]) := by
      have : (0 : SemdPtr) :: (A ++ d :: l ++ [1]) = (0 :: A) ++ (d :: (l ++ [1])) := by simp
      rw [this, ← hA]; simp
    rw [e2]
    exact this
  · refine (List.perm_middle.nodup_iff).mpr (List.nodup_cons.mpr ⟨hdact, h.active.nodup⟩)
  · intro d' hd'
    rcases (hmem d').mp hd' with rfl | hd'
    · exact hdne
    · exact h.active.ne d' hd'
  · show Function.update (Function.update q.sSemAdd d 0) d s 0 = 0
    rw [Function.update_of_ne hdne.1.symm, Function.update_of_ne hdne.1.symm]
    exact h.active.lower
  · show Function.update (Function.update q.sSemAdd d 0) d s 1 = maxAdd
    rw [Function.update_of_ne hdne.2.symm, Function.update_of_ne hdne.2.symm]
    exact h.active.upper
  · have hp := List.pairwise_append.mp h.active.sorted
    refine List.pairwise_append.mpr ⟨?_, List.pairwise_cons.mpr ⟨?_, ?_⟩, ?_⟩
    · exact hp.1.imp_of_mem fun {a b} ha hb hab => hlt a (by simp [ha]) b (by simp [hb]) hab
    · intro b hb
      have hs : s < Function.update (Function.update q.sSemAdd d 0) d s b := by
        rw [haddr b (by simp [hb])]
        exact hhigh b hb
      simpa using hs
    · exact hp.2.1.imp_of_mem fun {a b} ha hb hab => hlt a (by simp [ha]) b (by simp [hb]) hab
    · intro a ha b hb
      rcases List.mem_cons.mp hb with rfl | hb
      · have hs : Function.update (Function.update q.sSemAdd b 0) b s a < s := by
          rw [haddr a (by simp [ha])]
          exact hlowA a ha
        simpa using hs
      · exact hlt a (by simp [ha]) b (by simp [hb]) (hp.2.2 a ha b hb)
  · intro d' hd'
    rcases (hmem d').mp hd' with rfl | hd'
    · simpa using ⟨hs0, hmax⟩
    · have := h.active.inner d' hd'
      rw [← haddr d' hd'] at this
      exact this
  · have hfree := h.unused.2.update_of_not_mem (v := none) hdfree
    exact (hfree.update_of_not_mem hdfree).update_of_not_mem htmpfree
  · have : (A ++ d :: l ++ free).Perm (A ++ l ++ d :: free) := by
      simp only [List.append_assoc, List.cons_append]
      exact (@List.perm_middle _ d l free).symm.append_left A
    exact this.nodup_iff.mpr h.nodup
  · intro d'
    rw [← h.cover d']
    simp only [List.mem_append, List.mem_cons]
    tauto
  · show Function.update (Function.update (Function.update q.sProcQ d none) d none) d tp 1 = none
    simp only [Function.update_of_ne hdne.2.symm]
    exact h.upperQ
  · intro d' hd'
    show IsRing L (Function.update (Function.update (Function.update q.sProcQ d none) d none) d tp d')
      (Function.update blocked s m (Function.update (Function.update q.sSemAdd d 0) d s d'))
    rcases (hmem d').mp hd' with rfl | hd'
    · simpa using hring
    · rw [haddr d' hd', Function.update_of_ne (habs d' hd')]
      simp only [Function.update_of_ne (hne' d' hd')]
      exact (h.ring d' hd').congr (hframe _ (habs d' hd'))
  · intro d' hd'
    show Function.update blocked s m (Function.update (Function.update q.sSemAdd d 0) d s d') ≠ []
    rcases (hmem d').mp hd' with rfl | hd'
    · simpa using hne
    · rw [haddr d' hd', Function.update_of_ne (habs d' hd')]
      exact h.nonempty d' hd'
  · intro s' hs'
    by_cases e : s' = s
    · exact ⟨d, by simp, by simp [e]⟩
    · rw [Function.update_of_ne e] at hs'
      obtain ⟨d', hd', rfl⟩ := h.complete s' hs'
      exact ⟨d', (hmem d').mpr (Or.inr hd'), haddr d' hd'⟩

theorem addr_ne (h : AslRep q blocked act free) {s : Word} (hs : blocked s = []) :
    ∀ d ∈ act, q.sSemAdd d ≠ s := by
  rintro d hd rfl
  exact h.nonempty d hd hs

/-! ## The operations -/

/-- What every operation leaves alone. -/
structure Frame (q q' : Queues) (touched : List PcbPtr) : Prop where
  pcbFreeH : q'.pcbFreeH = q.pcbFreeH
  readyQueue : q'.readyQueue = q.readyQueue
  links : ∀ m : List PcbPtr, m.Disjoint touched → q.links.AgreeOn q'.links m

/-- The descriptor of `s` goes to the front of the free list when its queue,
now `l`, has become empty. -/
inductive Released (q : Queues) (s : Word) (act free : List SemdPtr) (l : List PcbPtr) :
    List SemdPtr → List SemdPtr → Prop where
  | empty {d} : d ∈ act → q.sSemAdd d = s → l = [] → Released q s act free l (act.erase d) (d :: free)
  | kept : l ≠ [] → Released q s act free l act free

theorem insertBlocked_spec (h : AslRep q blocked act free) (hap : Apart blocked) {s : Word}
    {p : PcbPtr} (hs0 : s ≠ 0) (hmax : s ≠ maxAdd) (hp : ∀ s', p ∉ blocked s')
    (hroom : blocked s = [] → free ≠ []) :
    ∃ q' act' free', insertBlocked q s p = some (false, q') ∧
      AslRep q' (Function.update blocked s (blocked s ++ [p])) act' free' ∧
      q'.pSemAdd = Function.update q.pSemAdd p s ∧ Frame q q' (p :: blocked s) := by
  by_cases hs : blocked s = []
  · obtain ⟨d, free', rfl⟩ := List.exists_cons_of_ne_nil (hroom hs)
    have habs := h.addr_ne hs
    obtain ⟨k, tmp, l, nx, hsplit, hfind, hnx, hne, hlow, hhigh⟩ :=
      h.active.find_absent habs hmax
    -- the second search runs after `newSemd`, which changed no active descriptor
    have hdfull := (h.free_not_mem (d := d) (by simp)).2
    have hdne : ∀ d' ∈ act, d' ≠ d := fun d' hd' e =>
      (h.free_not_mem (d := d) (by simp)).1 (e ▸ hd')
    have hne' : ∀ d' ∈ (0 : SemdPtr) :: (act ++ [1]), d' ≠ d := fun d' hd' e => hdfull (e ▸ hd')
    let q₁ : Queues := (newSemd q).2
    have hq₁ : newSemd q = (some d, q₁) := by simp [q₁, newSemd, h.unused.1]
    have hN : q₁.sNext = Function.update q.sNext d none := by simp [q₁, newSemd, h.unused.1]
    have hA : q₁.sSemAdd = Function.update q.sSemAdd d 0 := by simp [q₁, newSemd, h.unused.1]
    have hact₁ : ActiveList q₁ act := by
      refine h.active.congr (by simp [q₁, newSemd, h.unused.1]) ?_ ?_
      · exact fun d' hd' => by rw [hN, Function.update_of_ne (hne' d' hd')]
      · exact fun d' hd' => by rw [hA, Function.update_of_ne (hne' d' hd')]
    have haddr₁ : ∀ d' ∈ act, q₁.sSemAdd d' = q.sSemAdd d' := fun d' hd' => by
      rw [hA, Function.update_of_ne (hdne d' hd')]
    obtain ⟨k', tmp', l', nx', hsplit', hfind', -, -, hlow', hhigh'⟩ :=
      hact₁.find_absent (fun d' hd' => haddr₁ d' hd' ▸ habs d' hd') hmax
    have hl' : ∀ d' ∈ l', d' ∈ act := hact₁.mem_of_split hsplit'
    obtain ⟨L', hins, hring, hframe⟩ := insertProcQ_spec (IsRing.nil q.links) (p := p) (by simp)
    have hL : ∀ m : List PcbPtr, p ∉ m → q.links.AgreeOn L' m := fun m hm =>
      hframe m (fun _ _ h => absurd h List.not_mem_nil) hm
    obtain ⟨act', hrep⟩ := h.add hsplit' hs0 hmax habs
      (fun d' hd' hk => haddr₁ d' hd' ▸ hlow' d' hd' hk)
      (fun d' hd' => haddr₁ d' (hl' d' hd') ▸ hhigh' d' hd') hring (by simp)
      (fun s' _ => hL _ (hp s'))
    rw [hs]
    refine ⟨{ q₁ with
      links := L'
      pSemAdd := Function.update q.pSemAdd p s
      sNext := Function.update (Function.update q₁.sNext d (q₁.sNext tmp')) tmp' (some d)
      sSemAdd := Function.update q₁.sSemAdd d s
      sProcQ := Function.update (Function.update q₁.sProcQ d none) d (some p) }, act', free', ?_,
      hrep.congr ?_ ?_ ?_ ?_ ?_ fun _ _ _ => ⟨rfl, rfl⟩, rfl, ?_⟩
    · have hp₁ : q₁.pSemAdd = q.pSemAdd := by simp [q₁, newSemd, h.unused.1]
      have hl₁ : q₁.links = q.links := by simp [q₁, newSemd, h.unused.1]
      simp [insertBlocked, hfind, hnx, hne, hq₁, hfind', insertProcQAt, hl₁, hins, hp₁,
        mkEmptyProcQ]
    all_goals simp [q₁, newSemd, h.unused.1, mkEmptyProcQ]
    exact ⟨rfl, rfl, fun m hm => hL m fun hx => hm hx (by simp)⟩
  · obtain ⟨d, hd, rfl⟩ := h.complete s hs
    obtain ⟨k, tmp, l, hsplit, hfind, hnx⟩ := h.active.find_present hd
    obtain ⟨L', hins, hring, hframe⟩ := insertProcQ_spec (h.ring d hd) (hp _)
    have hL : ∀ s', s' ≠ q.sSemAdd d → q.links.AgreeOn L' (blocked s') := fun s' hs' =>
      hframe _ (hap s' _ hs') (hp s')
    have hrep := h.set_queue hd hring (by simp) hL
    refine ⟨{ q with
      links := L', sProcQ := Function.update q.sProcQ d (some p)
      pSemAdd := Function.update q.pSemAdd p (q.sSemAdd d) }, act, free, ?_, ?_, rfl, ?_⟩
    · simp [insertBlocked, hfind, hnx, insertProcQAt, hins]
    · exact hrep.congr rfl rfl rfl rfl rfl fun _ _ _ => ⟨rfl, rfl⟩
    · refine ⟨rfl, rfl, fun m hm => hframe m ?_ ?_⟩
      · exact fun x hx hxb => hm hx (List.mem_cons_of_mem _ hxb)
      · exact fun hx => hm hx (by simp)

/-- All descriptors are in use and `s` has none: `TRUE`, and nothing changed. -/
theorem insertBlocked_full (h : AslRep q blocked act []) {s : Word} (p : PcbPtr)
    (hmax : s ≠ maxAdd) (hs : blocked s = []) : insertBlocked q s p = some (true, q) := by
  obtain ⟨k, tmp, l, nx, -, hfind, hnx, hne, -, -⟩ := h.active.find_absent (h.addr_ne hs) hmax
  have hfree : q.semdFreeH = none := h.unused
  simp [insertBlocked, hfind, hnx, hne, newSemd, hfree]

theorem removeBlocked_nil (h : AslRep q blocked act free) {s : Word} (hmax : s ≠ maxAdd)
    (hs : blocked s = []) : removeBlocked q s = some (none, q) := by
  obtain ⟨k, tmp, l, nx, -, hfind, hnx, hne, -, -⟩ := h.active.find_absent (h.addr_ne hs) hmax
  simp [removeBlocked, hfind, hnx, hne]

theorem removeBlocked_spec (h : AslRep q blocked act free) (hap : Apart blocked) {s : Word}
    {p : PcbPtr} {l : List PcbPtr} (hs : blocked s = p :: l) :
    ∃ q' act' free', removeBlocked q s = some (some p, q') ∧
      AslRep q' (Function.update blocked s l) act' free' ∧
      q'.pSemAdd = Function.update q.pSemAdd p 0 ∧ Frame q q' (p :: l) ∧
      Released q s act free l act' free' := by
  obtain ⟨d, hd, rfl⟩ := h.complete s (by simp [hs])
  obtain ⟨k, tmp, r, hsplit, hfind, hnx⟩ := h.active.find_present hd
  have hring := h.ring d hd
  rw [hs] at hring
  obtain ⟨L', tp', hrem, hring', hframe⟩ := removeProcQ_spec hring
  have hL : ∀ s', s' ≠ q.sSemAdd d → q.links.AgreeOn L' (blocked s') := fun s' hs' =>
    hframe _ (hs ▸ hap s' _ hs')
  cases l with
  | nil =>
      obtain rfl : tp' = none := hring'.tail_eq
      have hrep := h.drop hsplit hL
      refine ⟨{ unlinkSemd { q with
        links := L', sProcQ := Function.update q.sProcQ d none } tmp d with
        pSemAdd := Function.update q.pSemAdd p 0 }, _, _, ?_, hrep.congr rfl rfl rfl rfl rfl
        fun _ _ _ => ⟨rfl, rfl⟩, rfl, ⟨rfl, rfl, hframe⟩, .empty hd rfl rfl⟩
      simp [removeBlocked, hfind, hnx, hrem, emptyProcQ]
      rfl
  | cons b l =>
      have htp : tp' ≠ none := fun e => by simpa using hring'.eq_nil_iff.mp e
      have hrep := h.set_queue hd hring' (by simp) hL
      refine ⟨{ q with
        links := L', sProcQ := Function.update q.sProcQ d tp'
        pSemAdd := Function.update q.pSemAdd p 0 }, _, _, ?_, hrep.congr rfl rfl rfl rfl rfl
        fun _ _ _ => ⟨rfl, rfl⟩, rfl, ⟨rfl, rfl, hframe⟩, .kept (by simp)⟩
      simp [removeBlocked, hfind, hnx, hrem, emptyProcQ, htp]

theorem outBlocked_spec (h : AslRep q blocked act free) (hap : Apart blocked) {p : PcbPtr}
    (hp : p ∈ blocked (q.pSemAdd p)) :
    ∃ q' act' free', outBlocked q p = some (some p, q') ∧
      AslRep q' (Function.update blocked (q.pSemAdd p) ((blocked (q.pSemAdd p)).erase p))
        act' free' ∧
      q'.pSemAdd = Function.update q.pSemAdd p 0 ∧ Frame q q' (blocked (q.pSemAdd p)) ∧
      Released q (q.pSemAdd p) act free ((blocked (q.pSemAdd p)).erase p) act' free' := by
  obtain ⟨d, hd, hds⟩ := h.complete (q.pSemAdd p) (List.ne_nil_of_mem hp)
  obtain ⟨k, tmp, r, hsplit, hfind, hnx⟩ := h.active.find_present hd
  rw [← hds] at hp ⊢
  obtain ⟨L', tp', hout, hring', hframe⟩ := outProcQ_spec (h.ring d hd) hp
  have hL : ∀ s', s' ≠ q.sSemAdd d → q.links.AgreeOn L' (blocked s') := fun s' hs' =>
    hframe _ (hap s' _ hs')
  by_cases hnil : (blocked (q.sSemAdd d)).erase p = []
  · rw [hnil] at hring' ⊢
    obtain rfl : tp' = none := hring'.tail_eq
    have hrep := h.drop hsplit hL
    refine ⟨{ unlinkSemd { q with
      links := L', sProcQ := Function.update q.sProcQ d none } tmp d with
      pSemAdd := Function.update q.pSemAdd p 0 }, _, _, ?_, hrep.congr rfl rfl rfl rfl rfl
      fun _ _ _ => ⟨rfl, rfl⟩, rfl, ⟨rfl, rfl, hframe⟩, .empty hd rfl rfl⟩
    simp [outBlocked, ← hds, hfind, hnx, hout, emptyProcQ]
    rfl
  · have htp : tp' ≠ none := fun e => hnil (hring'.eq_nil_iff.mp e)
    have hrep := h.set_queue hd hring' hnil hL
    refine ⟨{ q with
      links := L', sProcQ := Function.update q.sProcQ d tp'
      pSemAdd := Function.update q.pSemAdd p 0 }, _, _, ?_, hrep.congr rfl rfl rfl rfl rfl
      fun _ _ _ => ⟨rfl, rfl⟩, rfl, ⟨rfl, rfl, hframe⟩, .kept hnil⟩
    simp [outBlocked, ← hds, hfind, hnx, hout, emptyProcQ, htp]

/-- With a PCB left that is not blocked, some descriptor is free: each active
one holds at least one PCB, and no two the same. -/
theorem room (h : AslRep q blocked act free) (hap : Apart blocked) {p : PcbPtr}
    (hp : ∀ s, p ∉ blocked s) : free ≠ [] := by
  rintro rfl
  let f : SemdPtr → PcbPtr := fun d => (blocked (q.sSemAdd d)).head?.getD p
  have hf : ∀ d ∈ act, f d ∈ blocked (q.sSemAdd d) := by
    intro d hd
    obtain ⟨x, l, hl⟩ := List.exists_cons_of_ne_nil (h.nonempty d hd)
    simp [f, hl]
  have hnd : (p :: act.map f).Nodup := by
    refine List.nodup_cons.mpr ⟨?_, ?_⟩
    · intro hpm
      obtain ⟨d, hd, hdp⟩ := List.mem_map.mp hpm
      exact hp _ (hdp ▸ hf d hd)
    · refine List.Nodup.map_on ?_ h.active.nodup
      intro d hd d' hd' e
      refine h.active.addr_inj hd hd' ?_
      by_contra hne
      exact hap _ _ hne (hf d hd) (e ▸ hf d' hd')
  have hcard : act.length = maxProc := by
    have hset : act.toFinset = (Finset.univ.erase (0 : SemdPtr)).erase 1 := by
      ext d
      have := h.cover d
      rw [List.append_nil] at this
      simp [this, and_comm]
    have := congrArg Finset.card hset
    rw [List.toFinset_card_of_nodup h.active.nodup] at this
    rw [this]
    rfl
  have := length_le_maxProc hnd
  rw [List.length_cons, List.length_map, hcard] at this
  omega

end AslRep

/-! ## Initially -/

/-- Freeing the descriptors of `l` one by one chains them in front. -/
theorem foldl_freeSemd : ∀ (l : List SemdPtr) (q : Queues) {free : List SemdPtr},
    Seg q.sNext q.semdFreeH free none → (l ++ free).Nodup →
    ∃ N F, l.foldl freeSemd q = { q with sNext := N, semdFreeH := F } ∧
      Seg N F (l.reverse ++ free) none ∧ ∀ d, d ∉ l → N d = q.sNext d
  | [], q, _, hs, _ => ⟨q.sNext, q.semdFreeH, rfl, hs, fun _ _ => rfl⟩
  | i :: l, q, free, hs, hnd => by
      obtain ⟨hi, hnd'⟩ := List.nodup_cons.mp hnd
      have hmid : (l ++ i :: free).Nodup :=
        (List.perm_middle.nodup_iff).mpr (by simpa using hnd)
      obtain ⟨N, F, he, hseg, hN⟩ := foldl_freeSemd l (freeSemd q i)
        (hs.push fun e => hi (List.mem_append_right _ e)) hmid
      refine ⟨N, F, he, by simpa using hseg, ?_⟩
      intro d hd
      simp only [List.mem_cons, not_or] at hd
      rw [hN d hd.2]
      exact Function.update_of_ne hd.1 _ _

/-- Nobody is blocked, and all descriptors but the sentinels are free. -/
theorem initASL_spec (q : Queues) :
    (∃ free, AslRep (initASL q) (fun _ => []) [] free) ∧ (initASL q).links = q.links ∧
      (initASL q).pSemAdd = q.pSemAdd ∧ (initASL q).pcbFreeH = q.pcbFreeH ∧
      (initASL q).readyQueue = q.readyQueue := by
  let q₀ : Queues := { q with
    semdFreeH := none
    sNext := Function.update (Function.update q.sNext 0 (some 1)) 1 none
    sProcQ := Function.update (Function.update q.sProcQ 0 mkEmptyProcQ) 1 mkEmptyProcQ
    sSemAdd := Function.update (Function.update q.sSemAdd 0 0) 1 maxAdd
    semdH := some 0 }
  have hmem : ∀ d : SemdPtr, d ∈ (List.finRange (maxProc + 2)).drop 2 ↔ d ≠ 0 ∧ d ≠ 1 := by
    decide
  have hnd : ((List.finRange (maxProc + 2)).drop 2).Nodup :=
    (List.nodup_finRange _).sublist (List.drop_sublist _ _)
  obtain ⟨N, F, he, hseg, hN⟩ := @foldl_freeSemd _ q₀ [] rfl (by simpa using hnd)
  have he' : initASL q = { q₀ with sNext := N, semdFreeH := F } := he
  have h0 : N 0 = some 1 := hN 0 (by rw [hmem]; simp)
  have h1 : N 1 = none := hN 1 (by rw [hmem]; simp)
  rw [he']
  refine ⟨⟨_, ⟨⟨?_, by simp, by simp, ?_, ?_, by simp, by simp⟩, hseg, ?_, ?_, ?_, by simp, by simp,
    by simp⟩⟩, rfl, rfl, rfl, rfl⟩
  · exact ⟨rfl, h0, h1⟩
  · show Function.update (Function.update q.sSemAdd 0 0) 1 maxAdd 0 = 0
    rw [Function.update_of_ne (by decide), Function.update_self]
  · exact Function.update_self 1 maxAdd (Function.update q.sSemAdd 0 0)
  · simpa using hnd
  · intro d
    simpa using hmem d
  · exact Function.update_self 1 mkEmptyProcQ (Function.update q.sProcQ 0 mkEmptyProcQ)

end Pandos
