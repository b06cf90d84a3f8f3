/-
# `Pandos.Drain` — a tick of the interval timer

`handleIntervalTimerInterrupt` wakes everybody who waits for the clock.  Each
round takes a PCB off one ring and puts it into another; the last one leaves
the descriptor of the clock with an empty queue, which is then recycled, and
the search after that finds nothing.

A round is `Consistent.wakeFirst`.  The rounds add up (`Drained.cons`), and the
tick follows by induction on the queue of the clock.
-/
import Pandos.Subtree

namespace Pandos

open Intrusive

/-! ## Descriptors -/

/-- Only a descriptor for `s` is changed. -/
theorem removeBlocked_semd {q q' : Queues} {s : Word} {r : Option PcbPtr}
    (h : removeBlocked q s = some (r, q')) {d : SemdPtr} (hd : q.sSemAdd d ≠ s) :
    q'.sSemAdd d = q.sSemAdd d ∧ q'.sProcQ d = q.sProcQ d := by
  obtain ⟨tmp, -, h⟩ := Option.bind_eq_some_iff.mp h
  obtain ⟨nx, -, h⟩ := Option.bind_eq_some_iff.mp h
  split at h
  next hnx =>
    have hne : d ≠ nx := by
      rintro rfl
      exact hd hnx
    obtain ⟨⟨removed, L, tp⟩, -, h⟩ := Option.bind_eq_some_iff.mp h
    obtain ⟨p, -, h⟩ := Option.bind_eq_some_iff.mp h
    obtain ⟨-, rfl⟩ := Prod.mk.inj (Option.some.inj h)
    dsimp only
    split
    · simp [unlinkSemd, freeSemd, hne]
    · simp [hne]
  next =>
    obtain ⟨-, rfl⟩ := Prod.mk.inj (Option.some.inj h)
    exact ⟨rfl, rfl⟩

/-- As long as somebody is left, the descriptor stays that of `s`. -/
theorem AslRep.sSemAdd_kept {q q' : Queues} {blocked : Word → List PcbPtr} {s : Word}
    {r : Option PcbPtr} {l : List PcbPtr} {act unused act' unused' : List SemdPtr}
    (h : AslRep q blocked act unused) (hrem : removeBlocked q s = some (r, q'))
    (h' : AslRep q' (Function.update blocked s l) act' unused')
    (hrel : AslRep.Released q s act unused l act' unused') (hl : l ≠ []) :
    ∀ d ∈ act, q'.sSemAdd d = q.sSemAdd d := by
  intro d hd
  cases hrel with
  | empty _ _ hnil => exact absurd hnil hl
  | kept _ =>
      by_cases hds : q.sSemAdd d = s
      · obtain ⟨e, he, hes⟩ := h'.complete s (by rwa [Function.update_self])
        have heq : q.sSemAdd e = s := by
          by_contra hne
          rw [(removeBlocked_semd hrem hne).1] at hes
          exact hne hes
        obtain rfl := h.active.addr_inj he hd (heq.trans hds.symm)
        rw [hes, hds]
      · exact (removeBlocked_semd hrem hds).1

namespace Queues

/-- Everybody blocked on `s` has become ready, and nothing else has happened. -/
structure Drained (q q' : Queues) (s : Word) : Prop where
  ready : q'.readyList = q.readyList ++ q.blockedOn s
  pSemAdd : ∀ p, q'.pSemAdd p = if p ∈ q.blockedOn s then 0 else q.pSemAdd p
  blocked : q'.blockedOn = Function.update q.blockedOn s []
  descriptor : ∀ d ∈ q.activeSemds, q.sSemAdd d = s →
    q'.freeSemds = d :: q.freeSemds ∧ q'.activeSemds = q.activeSemds.erase d
  semds : ∀ d, q.sSemAdd d ≠ s → q'.sSemAdd d = q.sSemAdd d ∧ q'.sProcQ d = q.sProcQ d
  free : q'.freeList = q.freeList
  links : ∀ p, p ∉ q.readyList → p ∉ q.blockedOn s →
    q'.links.next p = q.links.next p ∧ q'.links.prev p = q.links.prev p
  consistent : q'.Consistent
  nobody : q.blockedOn s = [] → q' = q

/-- The first of them has. -/
structure Woken (q q' : Queues) (s : Word) (p : PcbPtr) (l : List PcbPtr) : Prop where
  ready : q'.readyList = q.readyList ++ [p]
  pSemAdd : q'.pSemAdd = Function.update q.pSemAdd p 0
  blocked : q'.blockedOn = Function.update q.blockedOn s l
  returns : q.Returns q' s
  kept : l ≠ [] → ∀ d ∈ q.activeSemds, q'.sSemAdd d = q.sSemAdd d
  semds : ∀ d, q.sSemAdd d ≠ s → q'.sSemAdd d = q.sSemAdd d ∧ q'.sProcQ d = q.sProcQ d
  free : q'.freeList = q.freeList
  links : ∀ x, x ∉ q.readyList → x ∉ p :: l →
    q'.links.next x = q.links.next x ∧ q'.links.prev x = q.links.prev x
  consistent : q'.Consistent

variable {q q' q₁ : Queues} {s : Word} {p : PcbPtr} {l : List PcbPtr}

theorem Drained.refl (h : q.Consistent) (hs : q.blockedOn s = []) : q.Drained q s where
  ready := by rw [hs, List.append_nil]
  pSemAdd := by simp [hs]
  blocked := (Function.update_eq_self_iff.mpr hs.symm).symm
  descriptor := by
    intro d hd hds
    exact absurd (hds ▸ hs) (h.aslWf.queues d hd).2
  semds _ _ := ⟨rfl, rfl⟩
  free := rfl
  links _ _ _ := ⟨rfl, rfl⟩
  consistent := h
  nobody _ := rfl

/-- The first one, and then the others. -/
theorem Drained.cons (hs : q.blockedOn s = p :: l) (h : q.Woken q₁ s p l)
    (h' : q₁.Drained q' s) : q.Drained q' s := by
  have hl : q₁.blockedOn s = l := by rw [h.blocked, Function.update_self]
  constructor
  case ready => rw [h'.ready, h.ready, hl, hs, List.append_assoc, List.singleton_append]
  case pSemAdd =>
    intro x
    rw [h'.pSemAdd, hl, h.pSemAdd, hs]
    by_cases hx : x = p
    · simp [hx]
    · simp [hx]
  case blocked => rw [h'.blocked, h.blocked, Function.update_idem]
  case descriptor =>
    intro d hd hds
    have hret := h.returns d hd hds
    rw [hl] at hret
    cases l with
    | nil =>
        rw [if_pos rfl] at hret
        rw [h'.nobody hl]
        exact hret
    | cons b l =>
        rw [if_neg (List.cons_ne_nil b l)] at hret
        obtain ⟨hfree, hact⟩ := hret
        have hd₁ : q₁.sSemAdd d = s := (h.kept (List.cons_ne_nil b l) d hd).trans hds
        have hdone := h'.descriptor d (hact ▸ hd) hd₁
        rwa [hfree, hact] at hdone
  case semds =>
    intro d hd
    obtain ⟨hadd, hq⟩ := h.semds d hd
    obtain ⟨hadd', hq'⟩ := h'.semds d (hadd ▸ hd)
    exact ⟨hadd'.trans hadd, hq'.trans hq⟩
  case free => rw [h'.free, h.free]
  case links =>
    intro x hx hxs
    rw [hs] at hxs
    have hxp : x ≠ p := fun e => hxs (e ▸ List.mem_cons_self)
    obtain ⟨hn, hp⟩ := h.links x hx hxs
    obtain ⟨hn', hp'⟩ := h'.links x (by simp [h.ready, hx, hxp])
      (by rw [hl]; exact fun hm => hxs (List.mem_cons_of_mem p hm))
    exact ⟨hn'.trans hn, hp'.trans hp⟩
  case consistent => exact h'.consistent
  case nobody =>
    intro hnil
    rw [hs] at hnil
    cases hnil

/-- The lists of a state, and that it is consistent, from what its links are
known to hold. -/
theorem lists_of_rings {free ready : List PcbPtr} {blocked : Word → List PcbPtr}
    {act unused : List SemdPtr} (hfree : FreeRing q free false)
    (hready : IsRing q.links q.readyQueue ready) (hasl : AslInv q blocked act unused)
    (hfr : free.Disjoint ready) (hfb : ∀ s, free.Disjoint (blocked s))
    (hrb : ∀ s, ready.Disjoint (blocked s))
    (hothers : ∀ x, x ∉ free → (∀ s, x ∉ blocked s) → q.pSemAdd x = 0) :
    q.freeList = free ∧ q.readyList = ready ∧ q.blockedOn = blocked ∧ q.Consistent := by
  have hlfree : q.freeList = free :=
    hfree.queue.queueAt_eq (length_le_maxProc (hfree.cycle rfl).nodup)
  have hlready : q.readyList = ready := hready.ringAt_eq (length_le_maxProc hready.nodup)
  have hlblocked := hasl.blockedOn
  have hmem := hasl.mem_blockedList
  refine ⟨hlfree, hlready, hlblocked, ?_⟩
  constructor
  case free => exact hlfree ▸ hfree
  case ready => exact hlready ▸ hready
  case asl => exact ⟨act, unused, hlblocked ▸ hasl.toAslRep⟩
  case free_ready => rwa [hlfree, hlready]
  case free_blocked =>
    intro x hx hxb
    obtain ⟨s, hs⟩ := (hmem x).mp hxb
    exact hfb s (hlfree ▸ hx) hs
  case ready_blocked =>
    intro x hx hxb
    obtain ⟨s, hs⟩ := (hmem x).mp hxb
    exact hrb s (hlready ▸ hx) hs
  case blocked => exact hlblocked ▸ hasl.addr
  case others =>
    intro x hx hxb
    exact hothers x (hlfree ▸ hx) fun s hs => hxb ((hmem x).mpr ⟨s, hs⟩)

/-- One round of the loop. -/
theorem Consistent.wakeFirst (h : q.Consistent) (hs : q.blockedOn s = p :: l) :
    ∃ q₁ q', removeBlocked q s = some (some p, q₁) ∧
      QueueOps.insertReady q₁ p = some q' ∧ q.Woken q' s p l := by
  obtain ⟨act, unused, hasl⟩ := h.asl
  have hinv : AslInv q q.blockedOn act unused := ⟨hasl, h.blocked⟩
  obtain ⟨q₁, act₁, unused₁, hrem, hasl₁, hsem₁, hframe, hrel⟩ :=
    hasl.removeBlocked_spec hinv.apart hs
  have hmem : ∀ s' x, x ∈ q.blockedOn s' → x ∈ q.blockedList := fun s' x hx =>
    h.mem_blockedList.mpr ⟨s', hx⟩
  have hp : p ∈ q.blockedOn s := hs ▸ List.mem_cons_self
  have hpl : p ∉ l := (List.nodup_cons.mp (hs ▸ h.blockedOn_nodup s)).1
  have hinv₁ := hinv.of_removed hasl₁ hsem₁ hp hpl (by rw [hs]; exact List.subset_cons_self p l)
  -- the queues afterwards: `p` is in none of them, and the others are as before
  have hsub : ∀ s' x, x ∈ Function.update q.blockedOn s l s' → x ∈ q.blockedOn s' ∧ x ≠ p := by
    intro s' x hx
    by_cases e : s' = s
    · subst e
      rw [Function.update_self] at hx
      exact ⟨hs ▸ List.mem_cons_of_mem p hx, fun e => hpl (e ▸ hx)⟩
    · rw [Function.update_of_ne e] at hx
      exact ⟨hx, fun e' => hinv.apart s' s e hx (e' ▸ hp)⟩
  have hpr : p ∉ q.readyList := fun hr => h.ready_blocked hr (hmem s p hp)
  have hpf : p ∉ q.freeList := fun hf => h.free_blocked hf (hmem s p hp)
  have hready₁ : IsRing q₁.links q₁.readyQueue q.readyList := by
    rw [hframe.readyQueue]
    exact h.ready.congr (hframe.links _ fun x hx hxs => h.ready_blocked hx (hmem s x (hs ▸ hxs)))
  obtain ⟨L, hins, hring, hL⟩ := insertProcQ_spec hready₁ hpr
  have hinv' : AslInv { q₁ with links := L, readyQueue := some p }
      (Function.update q.blockedOn s l) act₁ unused₁ := by
    refine ⟨hinv₁.congr rfl rfl rfl rfl rfl fun s' => hL _ ?_ ?_, hinv₁.addr⟩
    · exact fun x hx hr => h.ready_blocked hr (hmem s' x (hsub s' x hx).1)
    · exact fun hx => (hsub s' p hx).2 rfl
  have hfree : FreeRing { q₁ with links := L, readyQueue := some p } q.freeList false := by
    have hfs : q.freeList.Disjoint (p :: l) := fun x hx hxs =>
      h.free_blocked hx (hmem s x (hs ▸ hxs))
    have hfree₁ := h.free.congr hframe.pcbFreeH (hframe.links _ hfs)
    exact hfree₁.congr rfl (hL _ h.free_ready hpf)
  obtain ⟨hlfree, hlready, hlblocked, hcons⟩ := lists_of_rings hfree hring hinv'
    (List.disjoint_append_right.mpr ⟨h.free_ready, by simpa using hpf⟩)
    (fun s' x hx hxs => h.free_blocked hx (hmem s' x (hsub s' x hxs).1))
    (fun s' x hx hxs => by
      rcases List.mem_append.mp hx with hx | hx
      · exact h.ready_blocked hx (hmem s' x (hsub s' x hxs).1)
      · exact (hsub s' x hxs).2 (List.mem_singleton.mp hx))
    (fun x hx hxs => by
      show q₁.pSemAdd x = 0
      rw [hsem₁]
      by_cases hxp : x = p
      · rw [hxp, Function.update_self]
      · rw [Function.update_of_ne hxp]
        refine h.others x hx fun hxb => ?_
        obtain ⟨s', hs'⟩ := h.mem_blockedList.mp hxb
        refine hxs s' ?_
        by_cases e : s' = s
        · subst e
          rw [Function.update_self]
          exact (List.mem_cons.mp (hs ▸ hs')).resolve_left hxp
        · rwa [Function.update_of_ne e])
  have hkept : l ≠ [] → ∀ d ∈ q.activeSemds, q₁.sSemAdd d = q.sSemAdd d := by
    rw [hasl.active.activeSemds_eq]
    exact hasl.sSemAdd_kept hrem hasl₁ hrel
  refine ⟨q₁, { q₁ with links := L, readyQueue := some p }, hrem, ?_, ?_⟩
  · show (insertProcQ q₁.links q₁.readyQueue p).bind _ = _
    rw [hins]
    rfl
  · constructor
    case ready => exact hlready
    case pSemAdd => exact hsem₁
    case blocked => exact hlblocked
    case returns => exact hinv.returns hinv' hrel
    case kept => exact hkept
    case semds => exact fun d hd => removeBlocked_semd hrem hd
    case free => exact hlfree
    case consistent => exact hcons
    case links =>
      intro x hx hxs
      obtain ⟨hn, hv⟩ := hframe.links [x] (by simpa using hxs) x (List.mem_singleton_self x)
      obtain ⟨hn', hv'⟩ := hL [x] (by simpa using hx)
        (by simpa using fun e : p = x => hxs (e ▸ List.mem_cons_self)) x (List.mem_singleton_self x)
      exact ⟨hn'.trans hn, hv'.trans hv⟩

end Queues

/-! ## The tick -/

/-- Everybody who waited for the clock is ready; besides, the interval timer
has been loaded again. -/
structure Kernel.Ticked (k k' : Kernel Queues) : Prop where
  queues : k.q.Drained k'.q k.layout.clockSemaphore
  shared : k'.toShared = { k.toShared with
    intervalTimer := 100000
    softBlockedCount := k.softBlockedCount - (k.blockedOn k.layout.clockSemaphore).length
    mem := store k.mem k.layout.clockSemaphore 0 }
  nobody : k.blockedOn k.layout.clockSemaphore = [] → k' = { k with
    intervalTimer := 100000, mem := store k.mem k.layout.clockSemaphore 0 }

theorem clockLoop_drains {l : List PcbPtr} : ∀ {fuel : Nat} {k : Kernel Queues}, k.q.Consistent →
    k.blockedOn k.layout.clockSemaphore = l → l.length < fuel →
      ∃ k', clockLoop fuel k = some k' ∧ k.q.Drained k'.q k.layout.clockSemaphore ∧
        k'.toShared = { k.toShared with softBlockedCount := k.softBlockedCount - l.length } := by
  induction l with
  | nil =>
      intro fuel k h hs hf
      have hne := (Core.accessible_ne k.layout.isDevice_clockSemaphore.accessible).2
      obtain ⟨act, unused, hasl⟩ := h.asl
      have hrem := hasl.removeBlocked_nil hne hs
      cases fuel with
      | zero => cases hf
      | succ fuel =>
          refine ⟨k, ?_, .refl h hs, by simp⟩
          show (removeBlocked _ _).bind _ = _
          rw [hrem]
          rfl
  | cons p l ih =>
      intro fuel k h hs hf
      obtain ⟨q₁, q', hrem, hins, hwoken⟩ := h.wakeFirst hs
      cases fuel with
      | zero => cases hf
      | succ fuel =>
          have hl : q'.blockedOn k.layout.clockSemaphore = l := by
            rw [hwoken.blocked, Function.update_self]
          obtain ⟨k', hk', hdrained, hshared⟩ := @ih fuel
            { k with q := q', softBlockedCount := k.softBlockedCount - 1 }
            hwoken.consistent hl (Nat.lt_of_succ_lt_succ hf)
          refine ⟨k', ?_, .cons hs hwoken hdrained, ?_⟩
          · have hready : insertProcQReady { k with q := q₁ } p = some { k with q := q' } := by
              show (QueueOps.insertReady q₁ p).bind _ = _
              rw [hins]
              rfl
            show (removeBlocked _ _).bind _ = _
            rw [hrem]
            show (insertProcQReady { k with q := q₁ } p).bind _ = _
            rw [hready]
            exact hk'
          · rw [hshared]
            simp
            omega

/-- The tick, in any consistent state and with any number of processes
waiting. -/
theorem handleIntervalTimerInterrupt_ticks {k : Kernel Queues} (h : k.q.Consistent) :
    ∃ k', handleIntervalTimerInterrupt k = some k' ∧ k.Ticked k' := by
  have hlen := length_le_maxProc (h.blockedOn_nodup k.layout.clockSemaphore)
  obtain ⟨⟨sh, q⟩, hloop, hdrained, rfl⟩ :=
    clockLoop_drains (k := { k with intervalTimer := 100000 }) h rfl (Nat.lt_succ_of_le hlen)
  refine ⟨_, Option.bind_eq_some_iff.mpr ⟨_, hloop, rfl⟩, hdrained, rfl, fun hs => ?_⟩
  obtain rfl := hdrained.nobody hs
  have hn : (k.blockedOn k.layout.clockSemaphore).length = 0 := by rw [hs]; rfl
  simp [Kernel.setMem, hn]

/-- Three of five processes wait for the clock. -/
def tickScript : List Event :=
  [callCreate, callCreate, callCreate, callCreate, callClock, callClock, callClock]

theorem handleIntervalTimerInterrupt_ticks_script : ∃ k, Reachable k ∧
    k.blockedOn k.layout.clockSemaphore = [0, 1, 2] ∧
    ∃ k', handleIntervalTimerInterrupt k = some k' ∧ k.Ticked k' := by
  have hany : (Script.eval walkFuel .zero .zero tickScript).any (fun x =>
      IsCycle x.final.q.links x.final.q.freeList ∧
        x.final.blockedOn x.final.layout.clockSemaphore = [0, 1, 2]) = true := by
    decide +kernel
  obtain ⟨x, hx, h⟩ := Script.exists_of_any hany
  obtain ⟨hcycle, hblocked⟩ := of_decide_eq_true h
  obtain ⟨hboot, hrun, -⟩ := Script.run hx
  have hreach : Reachable x.final := ⟨x.start, x.trace, hboot, hrun⟩
  obtain ⟨c, hc⟩ := hreach.rep
  exact ⟨x.final, hreach, hblocked, handleIntervalTimerInterrupt_ticks
    (hc.queues.consistent (hc.queues.freeList_eq ▸ hcycle))⟩

end Pandos
