/-
# `Pandos.Semaphores` — the semaphores of processes

A semaphore that is no entry of `deviceSemaphores` is a counting semaphore
with a queue (`Pandos.Lib.Semaphore`): its value in memory and the queue of
its descriptor go through the operations `down`, `up` and `drop`
(`Core.next_sem`), one for `PASSEREN`, one for `VERHOGEN`, and one for a
termination, which drops all those it kills.

From this and the accounts of the library follow, for every run, the value of
the semaphore, the length of its queue and a bound on the `PASSEREN`s that
have completed and that
`VERHOGEN` wakes whoever has waited longest (`semaphore_law`).
-/
import Pandos.Lib.Semaphore
import Pandos.Script

namespace Pandos

open Semaphore Simulation

namespace Core

variable {c c' : Core} {s : Word} {p : PcbPtr}

/-- The semaphore at `s`. -/
def sem (c : Core) (s : Word) : Sem PcbPtr := ⟨c.mem s, c.q.blocked s⟩

@[simp] theorem dispatch_sem (c : Core) (s : Word) : c.dispatch.sem s = c.sem s := by
  obtain ⟨current, mode, h⟩ := dispatch_eq c
  rw [h]
  rfl

@[simp] theorem back_sem (c : Core) (s : Word) : c.back.sem s = c.sem s := by
  obtain ⟨ready, current, mode, h⟩ := back_eq c
  rw [h]
  rfl

theorem addMem_sem {s' : Word} (h : s ≠ s') (d : Int) : (c.addMem s' d).sem s = c.sem s := by
  simp [sem, addMem, h]

theorem block_sem {s' : Word} (h : s ≠ s') : (c.block s' p).sem s = c.sem s := by
  rw [block, dispatch_sem]
  simp [sem, Fifos.insertBlocked, h]

theorem wake_unblock_sem {s' : Word} {l : List PcbPtr} (h : s ≠ s')
    (hs' : c.q.blocked s' = p :: l) :
    ((c.unblock s').wake p).sem s = c.sem s := by
  rw [sem, wake_unblock_blocked hs', Function.update_of_ne h]
  rfl

theorem block_sem_self (c : Core) (s : Word) (p : PcbPtr) :
    (c.block s p).sem s = ⟨c.mem s, c.q.blocked s ++ [p]⟩ := by
  rw [block, dispatch_sem]
  simp [sem, Fifos.insertBlocked]

theorem wake_unblock_sem_self {l : List PcbPtr} (hs : c.q.blocked s = p :: l) :
    ((c.unblock s).wake p).sem s = ⟨c.mem s, l⟩ := by
  rw [sem, wake_unblock_blocked hs, Function.update_self]
  rfl

theorem drain_sem (hwf : c.q.Wf) {s' : Word} (h : s ≠ s') : (c.drain s').sem s = c.sem s := by
  refine (drain_induct (P := fun d => d.sem s = c.sem s) ?_ _ c rfl hwf rfl).1
  intro d p l hd _ hs'
  exact (wake_unblock_sem h hs').trans hd

theorem release_sem {s' : Word} (h : s ≠ s') : (c.release s').sem s = c.sem s := by
  rcases release_cases c s' with hrel | ⟨p, l, hb, hrel⟩
  · rw [hrel]
    rfl
  · rw [hrel, addMem_sem h]
    exact wake_unblock_sem (c := c.addSoft (-1)) h hb

/-! ### Terminations -/

theorem kill_sem (hwf : c.q.Wf) (p : PcbPtr) :
    (c.kill p).sem s = (c.sem s).step (.drop (· = p)) := by
  have hout : p ∉ c.q.blocked s → (c.sem s).step (.drop (· = p)) = c.sem s := by
    intro hp
    have hne : ∀ x ∈ c.q.blocked s, x ≠ p := fun x hx e => hp (e ▸ hx)
    have hcount : (c.q.blocked s).countP (· = p) = 0 :=
      List.countP_eq_zero.mpr fun x hx => by simpa using hne x hx
    have hfilter : (c.q.blocked s).filter (fun x => !decide (x = p)) = c.q.blocked s :=
      List.filter_eq_self.mpr fun x hx => by simpa using hne x hx
    simp [sem, Sem.step, hcount, hfilter]
  unfold kill
  split
  next hp =>
    by_cases hps : c.q.pSemAdd p = s
    · subst hps
      have hmem := hwf.mem_own hp
      have hcount : (c.q.blocked (c.q.pSemAdd p)).countP (· = p) = 1 := by
        have := List.count_eq_one_of_mem (hwf.blocked_nodup _) hmem
        rwa [List.count_eq_countP] at this
      simp only [sem, Sem.step, free, addMem, Fifos.freePcbRing, Fifos.outBlocked, store_self,
        Function.update_self, hcount, (hwf.blocked_nodup _).erase_eq_filter]
      rfl
    · have hnot : p ∉ c.q.blocked s := fun h => hps ((hwf.mem_blocked p s).mp h).1
      rw [hout hnot]
      simp [sem, free, addMem, Fifos.freePcbRing, Fifos.outBlocked, Ne.symm hps]
  next hp =>
    rw [hout (hwf.not_blocked (not_not.mp hp) s)]
    rfl

theorem killAll_sem (vs : List PcbPtr) : ∀ {c : Core}, c.q.Wf →
    (vs.foldl kill c).sem s = (c.sem s).step (.drop (· ∈ vs)) := by
  induction vs with
  | nil => intro c _; simp [Sem.step]
  | cons p vs ih =>
      intro c hwf
      rw [List.foldl_cons, ih (kill_wf hwf p), kill_sem hwf, Sem.step_drop_drop]
      simp

/-! ### Steps -/

/-- What an action means for the semaphore at `s`. -/
inductive SemStep (s : Word) (c c' : Core) : Action → Op PcbPtr → Prop where
  | down {cur} : c.current = some cur → cur ∉ c.q.blocked s → SemStep s c c' (.passeren s) (.down cur)
  | up : (∀ p l, c.q.blocked s = p :: l → c'.q.ready = c.q.ready ++ [p] ∧
      c'.q.blocked = Function.update c.q.blocked s l) → SemStep s c c' (.verhogen s) .up
  | drop {dead : PcbPtr → Bool} : (∀ p, dead p → ¬ c'.Live p) →
      SemStep s c c' .terminate (.drop dead)
  | skip {act} : act ≠ .passeren s → act ≠ .verhogen s → act ≠ .terminate →
      SemStep s c c' act .skip

/-- The action is about `s`. -/
def Names (s : Word) : Action → Prop
  | .passeren a | .verhogen a | .ioWait a | .clockWait a | .tick a | .device a | .store a _ => a = s
  | .createProcess | .terminate | .resume | .plt | .spurious | .panic | .reject => False

/-- Terminations apart, a semaphore that is not named stays as it is. -/
theorem next_frame {fuel : Nat} {act : Action} (hinv : Inv c) (h : c.next fuel act = some c')
    (hn : ¬ Names s act) (ht : act ≠ .terminate) : c'.sem s = c.sem s := by
  obtain ⟨hm, h⟩ := next_outcome h
  cases h with
  | terminated _ _ => exact absurd rfl ht
  | down _ _ _ => exact addMem_sem (Ne.symm hn) _
  | downBlocks _ _ _ => exact (block_sem (Ne.symm hn)).trans (addMem_sem (Ne.symm hn) _)
  | up _ _ _ => exact addMem_sem (Ne.symm hn) _
  | @upWakes cur s' p l _ _ hb =>
      have hb' : (c.addMem s' 1).q.blocked s' = p :: l := hb
      exact (wake_unblock_sem (Ne.symm hn) hb').trans (addMem_sem (Ne.symm hn) _)
  | ioWait _ _ => exact (block_sem (Ne.symm hn)).trans (addMem_sem (Ne.symm hn) _)
  | clock _ _ _ => exact addMem_sem (Ne.symm hn) _
  | clockBlocks _ _ _ => exact (block_sem (Ne.symm hn)).trans (addMem_sem (Ne.symm hn) _)
  | preempt _ => exact dispatch_sem _ s
  | @tick s' _ =>
      have hss : s ≠ s' := Ne.symm hn
      rw [back_sem]
      exact (show _ = (c.drain s').sem s by simp [sem, hss]).trans (drain_sem hinv.wf hss)
  | device _ => exact (back_sem _ s).trans (release_sem (Ne.symm hn))
  | spurious => exact back_sem c s
  | @store s' v =>
      have hss : s ≠ s' := Ne.symm hn
      simp [sem, hss]
  | full _ _ | created _ _ _ | resume _ | preemptNobody _ | panic => rfl

/-- A termination drops all those it kills. -/
theorem next_terminate_sem {fuel : Nat} (hinv : Inv c) (h : c.next fuel .terminate = some c')
    (s : Word) : ∃ vs : List PcbPtr, (∀ p ∈ vs, ¬ c'.Live p) ∧
      c'.sem s = (c.sem s).step (.drop (· ∈ vs)) := by
  obtain ⟨hm, h⟩ := next_outcome h
  cases h with
  | @terminated _ vs t _ _ =>
      refine ⟨vs, fun p hp => ?_, ?_⟩
      · obtain ⟨hr, hx⟩ := killAll_dead vs (c := { c with tree := t }) hinv.wf (.inl hp)
        exact dispatch_dead hr hx
      · rw [dispatch_sem]
        exact killAll_sem vs (c := { c with tree := t }) hinv.wf

theorem next_sem {fuel : Nat} {act : Action} (hinv : Inv c) (h : c.next fuel act = some c')
    (hs : s ≠ 0) (hdev : ¬ c.layout.IsDevice s) (hst : ∀ v, act ≠ .store s v) :
    ∃ o, SemStep s c c' act o ∧ c'.sem s = (c.sem s).step o := by
  by_cases ht : act = .terminate
  · subst ht
    obtain ⟨vs, hdead, hsem⟩ := next_terminate_sem hinv h s
    exact ⟨.drop (· ∈ vs), .drop fun p hp => hdead p (of_decide_eq_true hp), hsem⟩
  by_cases hn : ¬ Names s act
  · refine ⟨.skip, .skip ?_ ?_ ht, next_frame hinv h hn ht⟩
    · rintro rfl
      exact hn rfl
    · rintro rfl
      exact hn rfl
  obtain ⟨hm, h⟩ := next_outcome h
  have hwf := hinv.wf
  cases h with
  | @down cur s' hcur _ hpos =>
      obtain rfl : s' = s := not_not.mp hn
      refine ⟨.down cur, .down hcur (hwf.not_blocked (hinv.detached hm hcur).2.2 s'), ?_⟩
      simp [sem, Sem.step, not_lt.mpr hpos, run, addMem]
      omega
  | @downBlocks cur s' hcur _ hneg =>
      obtain rfl : s' = s := not_not.mp hn
      refine ⟨.down cur, .down hcur (hwf.not_blocked (hinv.detached hm hcur).2.2 s'), ?_⟩
      have hneg' : (c.sem s').value - 1 < 0 := hneg
      rw [block_sem_self, Sem.step, if_pos hneg']
      simp [sem, addMem]
      omega
  | @up cur s' hcur _ hb =>
      obtain rfl : s' = s := not_not.mp hn
      refine ⟨.up, .up fun p l hl => absurd (hb.symm.trans hl).symm (List.cons_ne_nil p l), ?_⟩
      simp [sem, Sem.step, run, addMem, hb]
  | @upWakes cur s' p l hcur _ hb =>
      obtain rfl : s' = s := not_not.mp hn
      have hb' : (c.addMem s' 1).q.blocked s' = p :: l := hb
      have hblocked := wake_unblock_blocked hb'
      refine ⟨.up, .up fun p' l' hl => ?_, ?_⟩
      · obtain ⟨rfl, rfl⟩ := List.cons.inj (hb.symm.trans hl)
        refine ⟨?_, hblocked⟩
        simp [run, wake, unblock, Fifos.insertReady, Fifos.removeBlocked, hb']
        rfl
      · exact (wake_unblock_sem_self hb').trans (by simp [sem, Sem.step, hb, addMem])
  | @ioWait _ s' _ hd | @clock _ s' _ hd _ | @clockBlocks _ s' _ hd _ | @tick s' hd
  | @device s' hd =>
      obtain rfl : s' = s := not_not.mp hn
      exact absurd hd hdev
  | @store s' v =>
      obtain rfl : s' = s := not_not.mp hn
      exact absurd rfl (hst v)
  | terminated _ _ => exact absurd rfl ht
  | full _ _ | created _ _ _ | resume _ | preempt _ | preemptNobody _ | spurious | panic =>
      exact absurd id hn

end Core

/-! ## Traces -/

namespace Trans

variable (x : Trans Queues) (s : Word)

/-- The processes that the termination `x` kills while they are blocked on `s`. -/
def killedOn : Nat :=
  if x.action = .terminate then (x.before.blockedOn s).countP fun p => ¬ x.after.Live p else 0

/-- Whether `x` is a `PASSEREN` on `s` whose caller goes on. -/
def passedOn : Nat :=
  if x.action = .passeren s ∧ ∀ p ∈ x.before.currentProcess, p ∉ x.after.blockedOn s then 1
  else 0

/-- The processes that leave the queue of `s` alive. -/
def wokenOn : Nat :=
  (x.before.blockedOn s).countP fun p => p ∉ x.after.blockedOn s ∧ x.after.Live p

/-- What `x` has to do with `s`. -/
def tally : Tally where
  ups := if x.action = .verhogen s then 1 else 0
  downs := if x.action = .passeren s then 1 else 0
  dropped := x.killedOn s
  passed := x.passedOn s
  woken := x.wokenOn s

end Trans

/-- What a run has had to do with `s`. -/
def tally (s : Word) (tr : List (Trans Queues)) : Tally :=
  tr.foldl (fun t x => t.add (x.tally s)) .zero

/-- For how many transitions `p` has been blocked on `s`. -/
def blockedFor (s : Word) (tr : List (Trans Queues)) (p : PcbPtr) : Nat :=
  (tr.reverse.takeWhile fun x => p ∈ x.before.blockedOn s).length

@[simp] theorem tally_concat (s : Word) (tr : List (Trans Queues)) (x : Trans Queues) :
    tally s (tr ++ [x]) = (tally s tr).add (x.tally s) := by
  simp [tally]

theorem blockedFor_concat (s : Word) (tr : List (Trans Queues)) (x : Trans Queues) :
    blockedFor s (tr ++ [x]) = tick (x.before.blockedOn s) (blockedFor s tr) := by
  funext p
  by_cases hp : p ∈ x.before.blockedOn s <;> simp [blockedFor, tick, hp]

section

variable {k k' : Kernel Queues} {e : Event} {c d : Core} {s : Word}

theorem Rep.live_of_blocked (h : Rep k c) {p : PcbPtr} (hp : p ∈ c.q.blocked s) : k.Live p := by
  obtain ⟨hps, hs⟩ := (h.inv.wf.mem_blocked p s).mp hp
  exact (h.live_iff p).mpr (.inr (.inl (hps ▸ hs)))

/-- The tally of a transition is that of the operation. -/
theorem tally_eq (hc : Rep k c) (hd : Rep k' d) {o : Op PcbPtr}
    (ho : Core.SemStep s c d (Pandos.action k.toShared e) o)
    (hsem : d.sem s = (c.sem s).step o) :
    (⟨k, e, k'⟩ : Trans Queues).tally s = (c.sem s).tally o := by
  have hnd := hc.inv.wf.blocked_nodup s
  have hwoken : ∀ l, d.q.blocked s = c.q.blocked s ++ l →
      (⟨k, e, k'⟩ : Trans Queues).wokenOn s = 0 := by
    intro l hl
    simp only [Trans.wokenOn, hc.blockedOn, hd.blockedOn, hl]
    exact List.countP_eq_zero.mpr fun p hp => by simp [hp]
  generalize hact : Pandos.action k.toShared e = act at ho
  have hact' : (⟨k, e, k'⟩ : Trans Queues).action = act := hact
  cases ho with
  | @down cur hcur hnb =>
      have hk : k.currentProcess = some cur := hc.current.symm.trans hcur
      have hq : d.q.blocked s = if (c.sem s).value - 1 < 0 then c.q.blocked s ++ [cur]
          else c.q.blocked s := congrArg Sem.queue hsem
      have hw : (⟨k, e, k'⟩ : Trans Queues).wokenOn s = 0 := by
        split at hq
        · exact hwoken _ hq
        · exact hwoken [] (by simpa using hq)
      simp only [Trans.tally, Trans.killedOn, Trans.passedOn, hact', hw, hd.blockedOn, hq, hk]
      by_cases hneg : (c.sem s).value - 1 < 0 <;> simp [Sem.tally, hneg, hnb]
  | up hup =>
      cases hb : c.q.blocked s with
      | nil =>
          have hq : d.q.blocked s = [] := by
            rw [show d.q.blocked s = _ from congrArg Sem.queue hsem]
            simp [Sem.step, Core.sem, hb]
          have hw := hwoken [] (by rw [hb, hq]; rfl)
          simp [Trans.tally, Trans.killedOn, Trans.passedOn, hact', hw, Sem.tally, Core.sem, hb]
      | cons p l =>
          obtain ⟨hready, hblocked⟩ := hup p l hb
          have hq : d.q.blocked s = l := by rw [hblocked, Function.update_self]
          have hp : k'.Live p := (hd.live_iff p).mpr (.inl (by simp [hready]))
          have hpl : p ∉ l := by
            rw [hb] at hnd
            exact (List.nodup_cons.mp hnd).1
          have hl : (l.countP fun x => x ∉ l ∧ k'.Live x) = 0 :=
            List.countP_eq_zero.mpr fun x hx => by simp [hx]
          have hw : (⟨k, e, k'⟩ : Trans Queues).wokenOn s = 1 := by
            simp only [Trans.wokenOn, hc.blockedOn, hd.blockedOn, hq, hb]
            rw [List.countP_cons, hl]
            simp [hpl, hp]
          simp [Trans.tally, Trans.killedOn, Trans.passedOn, hact', hw, Sem.tally, Core.sem, hb]
  | @drop dead hdead =>
      have hq : d.q.blocked s = (c.q.blocked s).filter fun x => !dead x :=
        congrArg Sem.queue hsem
      have hlive : ∀ p ∈ c.q.blocked s, k'.Live p ↔ dead p = false := by
        intro p hp
        constructor
        · intro hl
          by_contra hdp
          exact hdead p (by simpa using hdp) ((hd.live_iff p).mp hl)
        · intro hdp
          exact hd.live_of_blocked (s := s) (by rw [hq]; simp [hp, hdp])
      have hw : (⟨k, e, k'⟩ : Trans Queues).wokenOn s = 0 := by
        simp only [Trans.wokenOn, hc.blockedOn, hd.blockedOn, hq]
        refine List.countP_eq_zero.mpr fun p hp => ?_
        simp only [hlive p hp, List.mem_filter]
        simp [hp]
      have hk : (⟨k, e, k'⟩ : Trans Queues).killedOn s = (c.q.blocked s).countP dead := by
        simp only [Trans.killedOn, hact', if_true, hc.blockedOn]
        refine List.countP_congr fun p hp => ?_
        simp [hlive p hp]
      simp [Trans.tally, Trans.passedOn, hact', hw, hk, Sem.tally, Core.sem]
  | skip hp hv ht =>
      have hq : d.q.blocked s = c.q.blocked s := congrArg Sem.queue hsem
      have hw := hwoken [] (by simpa using hq)
      simp [Trans.tally, Trans.killedOn, Trans.passedOn, hact', hw, hp, hv, ht, Sem.tally,
        Tally.zero]

end

/-! ## Runs -/

/-- A semaphore in a run that starts at `k₀`, where nobody is blocked on it,
and that changes it by calls only. -/
structure SemRun (s : Word) (k₀ : Kernel Queues) (tr : List (Trans Queues))
    (k : Kernel Queues) : Prop where
  reachable : Reachable k₀
  run : Run k₀ tr k
  notNull : s ≠ 0
  notDevice : ¬ k₀.layout.IsDevice s
  nonneg : 0 ≤ k₀.mem s
  nobody : k₀.blockedOn s = []
  calls : ∀ x ∈ tr, ∀ v, x.event ≠ .store s v

/-- What is true of a semaphore all along. -/
structure SemInv (s : Word) (k₀ : Kernel Queues) (tr : List (Trans Queues)) (c : Core) :
    Prop where
  layout : c.layout = k₀.layout
  accounts : Accounts (k₀.mem s) (tally s tr) (c.sem s)
  ordered : Ordered (blockedFor s tr) (c.q.blocked s)

/-- One event. -/
theorem SemInv.step {s : Word} {k₀ k k' : Kernel Queues} {tr : List (Trans Queues)} {c d : Core}
    {e : Event} {fuel : Nat} (h : SemInv s k₀ tr c) (hc : Rep k c) (hd : Rep k' d)
    (hnext : c.next fuel (Pandos.action k.toShared e) = some d) (hs : s ≠ 0)
    (hdev : ¬ k₀.layout.IsDevice s) (hst : ∀ v, e ≠ .store s v) :
    SemInv s k₀ (tr ++ [⟨k, e, k'⟩]) d := by
  obtain ⟨o, ho, hsem⟩ := Core.next_sem hc.inv hnext hs (h.layout ▸ hdev)
    fun v hv => hst v (action_store hv)
  have hfresh : ∀ x, o = .down x → x ∉ (c.sem s).queue := by
    rintro x rfl
    generalize Pandos.action k.toShared e = act at ho
    cases ho with
    | down _ hx => exact hx
  refine ⟨(Core.next_layout hnext).trans h.layout, ?_, ?_⟩
  · rw [tally_concat, tally_eq hc hd ho hsem, hsem]
    exact h.accounts.step o
  · have hq : d.q.blocked s = ((c.sem s).step o).queue := congrArg Sem.queue hsem
    rw [blockedFor_concat, hc.blockedOn, hq]
    exact Ordered.step (s := c.sem s) h.ordered hfresh

/-- All along a run. -/
theorem SemRun.inv {s : Word} {k₀ k : Kernel Queues} {tr : List (Trans Queues)}
    (h : SemRun s k₀ tr k) : ∃ c, Rep k c ∧ SemInv s k₀ tr c := by
  obtain ⟨hreach, hrun, hs, hdev, hpos, hnobody, hcalls⟩ := h
  obtain ⟨c, hc⟩ := hreach.rep
  have hb : c.q.blocked s = [] := (hc.blockedOn s).symm.trans hnobody
  have hval : (c.sem s).value = k₀.mem s := congrFun hc.mem s
  have hstart : SemInv s k₀ [] c := by
    refine ⟨hc.layout, ?_, ?_⟩
    · rw [← hval]
      exact .start (hval ▸ hpos) hb
    · rw [hb]
      exact .nil
  refine hrun.invariant hcalls ⟨c, hc, hstart⟩ ?_
  intro tr k e k' c d fuel hc hd hnext hst hinv
  exact hinv.step hc hd hnext hs hdev hst

/-- `p` is the one of the queue of `s` that has waited longest, and becomes
ready; no other queue changes. -/
structure WakesLongest (s : Word) (tr : List (Trans Queues)) (k k' : Kernel Queues)
    (p : PcbPtr) : Prop where
  mem : p ∈ k.blockedOn s
  longest : ∀ x ∈ k.blockedOn s, x ≠ p → blockedFor s tr x < blockedFor s tr p
  ready : k'.readyList = k.readyList ++ [p]
  leaves : k'.blockedOn s = (k.blockedOn s).erase p
  others : ∀ s', s' ≠ s → k'.blockedOn s' = k.blockedOn s'

theorem SemInv.wakesLongest {s : Word} {k₀ k k' : Kernel Queues} {tr : List (Trans Queues)}
    {c d : Core} {e : Event} {fuel : Nat} (h : SemInv s k₀ tr c) (hc : Rep k c) (hd : Rep k' d)
    (hnext : c.next fuel (Pandos.action k.toShared e) = some d)
    (hact : Pandos.action k.toShared e = .verhogen s) (hb : k.blockedOn s ≠ []) :
    ∃ p, WakesLongest s tr k k' p := by
  rw [hact] at hnext
  obtain ⟨-, hout⟩ := Core.next_outcome hnext
  cases hout with
  | up _ _ hnil => exact absurd ((hc.blockedOn s).trans hnil) hb
  | @upWakes cur _ p l _ _ hpl =>
      have hpl' : (c.addMem s 1).q.blocked s = p :: l := hpl
      have hblocked := Core.wake_unblock_blocked hpl'
      have hord := h.ordered
      rw [hpl] at hord
      refine ⟨p, ?_, ?_, ?_, ?_, ?_⟩
      · rw [hc.blockedOn, hpl]
        simp
      · intro x hx hxp
        rw [hc.blockedOn, hpl] at hx
        exact hord.head x ((List.mem_cons.mp hx).resolve_left hxp)
      · rw [hd.readyList, hc.readyList]
        simp [Core.run, Core.wake, Core.unblock, Fifos.insertReady, Fifos.removeBlocked, hpl']
        rfl
      · rw [hd.blockedOn, hc.blockedOn, Core.run, hblocked, hpl]
        simp
      · intro s' hs'
        rw [hd.blockedOn, hc.blockedOn, Core.run, hblocked, Function.update_of_ne hs']
        rfl

/-- The value counts the calls and the terminations, the queue is as long as
the value is negative, no more `PASSEREN`s complete than there have been
units, and the next `VERHOGEN` wakes the one that has waited longest. -/
theorem semaphore_law {s : Word} {k₀ k : Kernel Queues} {tr : List (Trans Queues)}
    (h : SemRun s k₀ tr k) :
    k.mem s = k₀.mem s + (tally s tr).ups - (tally s tr).downs + (tally s tr).dropped ∧
      ((k.blockedOn s).length : Int) = max 0 (-k.mem s) ∧
      (((tally s tr).passed + (tally s tr).woken : Nat) : Int) ≤ k₀.mem s + (tally s tr).ups ∧
      ∀ e k', Step k e k' → Pandos.action k.toShared e = .verhogen s → k.blockedOn s ≠ [] →
        ∃ p, WakesLongest s tr k k' p := by
  obtain ⟨c, hc, hinv⟩ := h.inv
  have hval : (c.sem s).value = k.mem s := congrFun hc.mem s
  have hqueue : (c.sem s).queue = k.blockedOn s := (hc.blockedOn s).symm
  refine ⟨?_, ?_, hinv.accounts.completed_le, ?_⟩
  · rw [← hval]
    exact hinv.accounts.value
  · rw [← hval, ← hqueue]
    exact hinv.accounts.length
  · intro e k' hstep hact hb
    obtain ⟨fuel, d, hnext, hd⟩ := hc.step hstep
    exact hinv.wakesLongest hc hd hnext hact hb

/-- A semaphore on which the first process and one of its children block,
and one more child dies. -/
def semScript : List Event :=
  [callCreate, callCreate, callCreate, callP 0x20200000, callP 0x20200000, pltTick, callTerm]

/-- One `VERHOGEN` later the first process, which has waited longest, is ready. -/
theorem semaphore_law_script : ∃ k₀ tr k, SemRun 0x20200000 k₀ tr k ∧
    k.blockedOn 0x20200000 = [0, 1] ∧ k.mem 0x20200000 = -2 ∧
      ∀ e k', Step k e k' → Pandos.action k.toShared e = .verhogen 0x20200000 →
        ∃ p, WakesLongest 0x20200000 tr k k' p := by
  have hany : (Script.eval 50 .zero .zero semScript).any (fun x =>
      (0x20200000 : Word) ≠ 0 ∧ ¬ x.start.layout.IsDevice 0x20200000 ∧
        0 ≤ x.start.mem 0x20200000 ∧ x.start.blockedOn 0x20200000 = [] ∧
        x.final.blockedOn 0x20200000 = [0, 1] ∧ x.final.mem 0x20200000 = -2) = true := by
    decide +kernel
  obtain ⟨x, hx, h⟩ := Script.exists_of_any hany
  obtain ⟨h0, hdev, hpos, hnobody, hblocked, hmem⟩ := of_decide_eq_true h
  obtain ⟨hboot, hrun, hevents⟩ := Script.run hx
  have hsem : SemRun 0x20200000 x.start x.trace x.final := by
    refine ⟨⟨_, [], hboot, .nil⟩, hrun, h0, hdev, hpos, hnobody, fun y hy v hv => ?_⟩
    have hmem : y.event ∈ semScript := hevents ▸ List.mem_map_of_mem hy
    rw [hv] at hmem
    simp [semScript, callCreate, callP, callTerm, pltTick, syscall] at hmem
  refine ⟨x.start, x.trace, x.final, hsem, hblocked, hmem, fun e k' hstep hact => ?_⟩
  exact (semaphore_law hsem).2.2.2 e k' hstep hact (by rw [hblocked]; exact nofun)

end Pandos
