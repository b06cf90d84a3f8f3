/-
# `Pandos.Observe` — what a state of the nucleus shows

The queues as one reads them off the pointers: the free PCBs from
`pcbFree_h`, the ready ones from `readyQueue`, the active descriptors from
`semd_h` and the blocked PCBs from their `s_procQ`.  A process is live when
it is ready, blocked or running.

Where the pointer structures hold lists (`QRep`), these are the lists.
-/
import Pandos.Lib.Walk
import Pandos.Tracking

namespace Pandos

open Intrusive

/-! ## Queues -/

namespace Queues

def freeList (q : Queues) : List PcbPtr := q.links.queueAt maxProc q.pcbFreeH

def readyList (q : Queues) : List PcbPtr := q.links.ringAt maxProc q.readyQueue

/-- The active descriptors, without the sentinels. -/
def activeSemds (q : Queues) : List SemdPtr :=
  (walk q.sNext (fun _ => false) (maxProc + 2) q.semdH).filter fun d => d ≠ 0 ∧ d ≠ 1

/-- The descriptors that are not in use. -/
def freeSemds (q : Queues) : List SemdPtr := walk q.sNext (fun _ => false) (maxProc + 2) q.semdFreeH

/-- The process queue of a descriptor. -/
def procQ (q : Queues) (d : SemdPtr) : List PcbPtr := q.links.ringAt maxProc (q.sProcQ d)

def blockedOn (q : Queues) (s : Word) : List PcbPtr :=
  match q.activeSemds.find? fun d => q.sSemAdd d = s with
  | none => []
  | some d => q.procQ d

/-- All blocked PCBs. -/
def blockedList (q : Queues) : List PcbPtr := q.activeSemds.flatMap q.procQ

end Queues

theorem ActiveList.activeSemds_eq {q : Queues} {act : List SemdPtr} (h : ActiveList q act) :
    q.activeSemds = act := by
  have hlen : ((0 : SemdPtr) :: (act ++ [1])).length ≤ maxProc + 2 := by
    simpa using List.Nodup.length_le_card h.full_nodup
  rw [Queues.activeSemds, h.seg.walk_eq hlen]
  have hact : act.filter (fun d => d ≠ 0 ∧ d ≠ 1) = act :=
    List.filter_eq_self.mpr fun d hd => by simpa using h.ne d hd
  simpa using hact

namespace AslRep

variable {q : Queues} {blocked : Word → List PcbPtr} {act free : List SemdPtr}

theorem procQ_eq (h : AslRep q blocked act free) {d : SemdPtr} (hd : d ∈ act) :
    q.procQ d = blocked (q.sSemAdd d) :=
  (h.ring d hd).ringAt_eq (length_le_maxProc (h.ring d hd).nodup)

theorem blockedOn_eq (h : AslRep q blocked act free) (s : Word) : q.blockedOn s = blocked s := by
  unfold Queues.blockedOn
  rw [h.active.activeSemds_eq]
  cases hfind : act.find? fun d => q.sSemAdd d = s with
  | none =>
      by_contra hne
      obtain ⟨d, hd, hds⟩ := h.complete s (Ne.symm hne)
      exact absurd hds (by simpa using List.find?_eq_none.mp hfind d hd)
  | some d =>
      have hds : q.sSemAdd d = s := by simpa using List.find?_some hfind
      rw [← hds]
      exact h.procQ_eq (List.mem_of_find?_eq_some hfind)

theorem mem_blockedList (h : AslRep q blocked act free) (p : PcbPtr) :
    p ∈ q.blockedList ↔ ∃ s, p ∈ blocked s := by
  rw [Queues.blockedList, h.active.activeSemds_eq, List.mem_flatMap]
  constructor
  · rintro ⟨d, hd, hp⟩
    exact ⟨_, h.procQ_eq hd ▸ hp⟩
  · rintro ⟨s, hp⟩
    obtain ⟨d, hd, rfl⟩ := h.complete s (List.ne_nil_of_mem hp)
    exact ⟨d, hd, h.procQ_eq hd ▸ hp⟩

end AslRep

namespace QRep

variable {q : Queues} {f : Fifos}

theorem freeList_eq (h : QRep q f) : q.freeList = f.free :=
  h.free.queue.queueAt_eq (length_le_maxProc h.wf.free_nodup)

theorem readyList_eq (h : QRep q f) : q.readyList = f.ready :=
  h.ready.ringAt_eq (length_le_maxProc h.wf.ready_nodup)

/-- The queue of an active descriptor. -/
theorem procQ_eq (h : QRep q f) {d : SemdPtr} (hd : d ∈ q.activeSemds) :
    IsRing q.links (q.sProcQ d) (f.blocked (q.sSemAdd d)) ∧
      q.procQ d = f.blocked (q.sSemAdd d) ∧ f.blocked (q.sSemAdd d) ≠ [] := by
  obtain ⟨act, unused, hasl⟩ := h.asl
  rw [hasl.active.activeSemds_eq] at hd
  exact ⟨hasl.ring d hd, hasl.procQ_eq hd, hasl.nonempty d hd⟩

theorem blockedOn_eq (h : QRep q f) (s : Word) : q.blockedOn s = f.blocked s := by
  obtain ⟨act, unused, hasl⟩ := h.asl
  exact hasl.blockedOn_eq s

theorem mem_blockedList (h : QRep q f) (p : PcbPtr) : p ∈ q.blockedList ↔ f.pSemAdd p ≠ 0 := by
  obtain ⟨act, unused, hasl⟩ := h.asl
  rw [hasl.mem_blockedList]
  constructor
  · rintro ⟨s, hp⟩
    obtain ⟨hs, hne⟩ := (h.wf.mem_blocked p s).mp hp
    exact hs ▸ hne
  · exact fun hp => ⟨_, h.wf.mem_own hp⟩

/-- `removeBlocked` takes the first blocked process. -/
theorem removeBlocked_head {q' : Queues} {s : Word} {r : Option PcbPtr} (h : QRep q f)
    (hmax : s ≠ maxAdd) (hr : QueueOps.removeBlocked q s = some (r, q')) :
    r = (q.blockedOn s).head? := by
  obtain ⟨⟨r', q''⟩, hq'', hsame, -⟩ := h.removeBlocked s _ (Fifos.removeBlocked_eq hmax)
  obtain ⟨rfl, -⟩ := Prod.mk.inj (Option.some.inj (hr.symm.trans hq''))
  have hr : r = (f.removeBlocked s).1 := hsame
  rw [hr, h.blockedOn_eq, Fifos.removeBlocked]
  cases f.blocked s <;> rfl

/-- `allocPcb` takes the first free PCB. -/
theorem allocPcbRing_head {q' : Queues} {r : Option PcbPtr} (h : QRep q f)
    (hr : QueueOps.allocPcbRing q = some (r, q')) : r = q.freeList.head? := by
  obtain ⟨⟨r', q''⟩, hq'', hsame, -⟩ := h.allocPcbRing _ rfl
  obtain ⟨rfl, -⟩ := Prod.mk.inj (Option.some.inj (hr.symm.trans hq''))
  have hr : r = f.allocPcbRing.1 := hsame
  rw [hr, h.freeList_eq, Fifos.allocPcbRing]
  cases f.free <;> rfl

end QRep

/-! ## Processes -/

namespace Kernel

variable (k : Kernel Queues)

abbrev readyList : List PcbPtr := k.q.readyList
abbrev blockedOn (s : Word) : List PcbPtr := k.q.blockedOn s

/-- The process that executes, if any. -/
def running : Option PcbPtr := if k.cpu.busy then k.currentProcess else none

/-- Ready, blocked or running. -/
def Live (p : PcbPtr) : Prop :=
  p ∈ k.q.readyList ∨ p ∈ k.q.blockedList ∨ k.running = some p

instance (p : PcbPtr) : Decidable (k.Live p) := inferInstanceAs (Decidable (_ ∨ _))

end Kernel

namespace Core

/-- The process that executes, if any. -/
def running (c : Core) : Option PcbPtr := if c.mode = .busy then c.current else none

def Live (c : Core) (p : PcbPtr) : Prop :=
  p ∈ c.q.ready ∨ c.q.pSemAdd p ≠ 0 ∨ c.running = some p

variable {c : Core} {p : PcbPtr}

theorem kill_dead {x : PcbPtr} (hwf : c.q.Wf) (h : x = p ∨ x ∉ c.q.ready ∧ c.q.pSemAdd x = 0) :
    x ∉ (c.kill p).q.ready ∧ (c.kill p).q.pSemAdd x = 0 := by
  unfold kill
  split
  next hp =>
    have hpr : p ∉ c.q.ready := fun hr => hp (hwf.pSemAdd_ready p hr)
    rcases h with rfl | ⟨hr, hx⟩
    · exact ⟨hpr, by simp [free, addMem, Fifos.freePcbRing, Fifos.outBlocked]⟩
    · have hxp : x ≠ p := fun e => hp (e ▸ hx)
      exact ⟨hr, by simp [free, addMem, Fifos.freePcbRing, Fifos.outBlocked, hxp, hx]⟩
  next hp =>
    rcases h with rfl | ⟨hr, hx⟩
    · exact ⟨hwf.ready_nodup.not_mem_erase, not_not.mp hp⟩
    · exact ⟨fun hm => hr (List.mem_of_mem_erase hm), hx⟩

/-- Who has been killed is neither ready nor blocked. -/
theorem killAll_dead (vs : List PcbPtr) {x : PcbPtr} : ∀ {c : Core}, c.q.Wf →
    (x ∈ vs ∨ x ∉ c.q.ready ∧ c.q.pSemAdd x = 0) →
    x ∉ (vs.foldl kill c).q.ready ∧ (vs.foldl kill c).q.pSemAdd x = 0 := by
  induction vs with
  | nil => intro c _ h; simpa using h
  | cons p vs ih =>
      intro c hwf h
      refine ih (kill_wf hwf p) ?_
      rcases h with h | h
      · rcases List.mem_cons.mp h with rfl | h
        · exact .inr (kill_dead hwf (.inl rfl))
        · exact .inl h
      · exact .inr (kill_dead hwf (.inr h))

theorem Inv.running_eq (h : c.Inv) (hm : c.mode = .busy ∨ c.mode = .waiting) :
    c.running = c.current := by
  rcases hm with hm | hm
  · exact if_pos hm
  · rw [running, if_neg (by rw [hm]; decide), h.waiting hm]

theorem dispatch_running (c : Core) : c.dispatch.running = c.q.ready.head? := by
  unfold dispatch
  split
  next hl => rw [hl]; rfl
  next hl =>
    rw [hl]
    split
    · rfl
    · split <;> rfl

/-- A dispatch makes nobody live. -/
theorem dispatch_dead {x : PcbPtr} (hr : x ∉ c.q.ready) (hx : c.q.pSemAdd x = 0) :
    ¬ c.dispatch.Live x := by
  rw [Live, dispatch_ready, dispatch_pSemAdd, dispatch_running]
  rintro (h | h | h)
  · exact hr (List.mem_of_mem_tail h)
  · exact h hx
  · exact hr (List.mem_of_head? h)

end Core

namespace Rep

variable {k : Kernel Queues} {c : Core}

theorem running (h : Rep k c) : k.running = c.running := by
  simp only [Kernel.running, Core.running, h.mode_busy, h.current]

theorem live_iff (h : Rep k c) (p : PcbPtr) : k.Live p ↔ c.Live p := by
  rw [Kernel.Live, Core.Live, h.running, h.queues.readyList_eq, h.queues.mem_blockedList]

theorem blockedOn (h : Rep k c) (s : Word) : k.blockedOn s = c.q.blocked s :=
  h.queues.blockedOn_eq s

theorem readyList (h : Rep k c) : k.readyList = c.q.ready := h.queues.readyList_eq

end Rep

/-- What the event of a transition amounts to. -/
def Trans.action (x : Trans Queues) : Action := Pandos.action x.before.toShared x.event

/-! ## Reachable states -/

theorem Boot.rep {k : Kernel Queues} (h : Boot k) : ∃ m, Rep k (bootCore m) := by
  obtain ⟨m, hw, hboot⟩ := h
  obtain ⟨k', hk, hrep⟩ := main_rep m hw
  obtain rfl : k = k' := Option.some.inj (hboot.symm.trans hk)
  exact ⟨m, hrep⟩

/-- What holds of the core of the first state, and is kept by every event of a
kind, holds all along a run of such events. -/
theorem Run.invariant {k₀ k : Kernel Queues} {tr : List (Trans Queues)}
    {P : List (Trans Queues) → Core → Prop} {G : Trans Queues → Prop}
    (h : Run k₀ tr k) (hG : ∀ x ∈ tr, G x) (h₀ : ∃ c, Rep k₀ c ∧ P [] c)
    (hstep : ∀ {tr k e k' c d fuel}, Rep k c → Rep k' d →
      c.next fuel (action k.toShared e) = some d → G ⟨k, e, k'⟩ → P tr c →
        P (tr ++ [⟨k, e, k'⟩]) d) :
    ∃ c, Rep k c ∧ P tr c := by
  induction h with
  | nil => exact h₀
  | snoc _ hs ih =>
      obtain ⟨c, hc, hP⟩ := ih fun x hx => hG x (List.mem_append_left _ hx)
      obtain ⟨fuel, d, hnext, hd⟩ := hc.step hs
      exact ⟨d, hd, hstep hc hd hnext (hG _ (by simp)) hP⟩

/-- Every reachable state stands for a core state, with what holds after boot
and is kept by every action. -/
theorem Reachable.invariant {P : Core → Prop} {k : Kernel Queues} (h : Reachable k)
    (h₀ : ∀ m, P (bootCore m))
    (hstep : ∀ {c d : Core} {fuel act}, c.Inv → c.next fuel act = some d → P c → P d) :
    ∃ c, Rep k c ∧ P c := by
  obtain ⟨k₀, tr, hboot, hrun⟩ := h
  obtain ⟨m, hrep⟩ := hboot.rep
  exact hrun.invariant (P := fun _ => P) (G := fun _ => True) (fun _ _ => trivial)
    ⟨_, hrep, h₀ m⟩ fun hc _ hnext _ => hstep hc.inv hnext

theorem Reachable.rep {k : Kernel Queues} (h : Reachable k) : ∃ c, Rep k c := by
  obtain ⟨c, hc, -⟩ := h.invariant (P := fun _ => True) (fun _ => trivial) fun _ _ _ => trivial
  exact ⟨c, hc⟩

theorem Reachable.run {k₀ k : Kernel Queues} {tr : List (Trans Queues)} (h₀ : Reachable k₀)
    (h : Run k₀ tr k) : Reachable k := by
  obtain ⟨b, tr₀, hb, hrun⟩ := h₀
  induction h with
  | nil => exact ⟨b, tr₀, hb, hrun⟩
  | snoc _ hstep ih =>
      obtain ⟨b', tr', hb', hrun'⟩ := ih
      exact ⟨b', _, hb', hrun'.snoc hstep⟩

end Pandos
