/-
# `Pandos.Tracking` — every event is its action

The handlers, run over lists, do to the processes what `Core.next` says the
event's action does (`step_core`); and where the handler over pointers
returns, the action is possible (`step_possible`).  With `KSim.step` this
connects the source to the abstract model: one event of the nucleus is one
action of `Core` (`Tracks.step`), and a run of the nucleus is a run of
`Core` (`Tracks.run`).
-/
import Pandos.Core
import Pandos.Refinement

namespace Pandos

open Simulation Kernel

/-! ## Over lists -/

section Lists

variable {a : Kernel Fifos} {hw : Hw} {cur p : PcbPtr} {s : Word} {fuel : Nat}

/-- The handler returns, in a state with core `d`. -/
abbrev Reaches (x : Option (Kernel Fifos)) (d : Core) : Prop := Yields x fun a' => a'.core = d

theorem scheduler_core (hw : Hw) (a : Kernel Fifos) :
    Reaches (scheduler hw a) a.core.dispatch := by
  obtain ⟨sh, f⟩ := a
  cases hr : f.ready with
  | cons p l =>
      refine ⟨_, by simp [scheduler, QueueOps.removeReady, Fifos.removeReady, hr]; rfl, ?_⟩
      simp [Kernel.core, Core.dispatch, hr, updateTimeAndSwitch, loadProcess, setTimer, Core.run,
        Cpu.mode]
  | nil =>
      by_cases h0 : sh.processCount = 0
      · refine ⟨_, by simp [scheduler, QueueOps.removeReady, Fifos.removeReady, hr, h0]; rfl, ?_⟩
        simp [Kernel.core, Core.dispatch, hr, h0, Cpu.mode]
      · by_cases h1 : sh.softBlockedCount > 0
        · refine ⟨_, by
            simp [scheduler, QueueOps.removeReady, Fifos.removeReady, hr, h0, h1]; rfl, ?_⟩
          simp [Kernel.core, Core.dispatch, hr, h0, h1, Cpu.mode, setStatusForWaiting, setTimer]
        · refine ⟨_, by
            simp [scheduler, QueueOps.removeReady, Fifos.removeReady, hr, h0, h1]; rfl, ?_⟩
          simp [Kernel.core, Core.dispatch, hr, h0, h1, Cpu.mode, Kernel.panic]

theorem block_core (hp : a.q.Detached cur) (hs : s ≠ 0) (hmax : s ≠ maxAdd) :
    Reaches (do scheduler hw (← blockCurrentProcessAt hw a s cur)) (a.core.block s cur) := by
  have hb : blockCurrentProcessAt hw a s cur = some { a.addTime cur (hw.stopT - a.startT) with
      q := a.q.insertBlocked s cur, currentProcess := none } := by
    have h := Fifos.insertBlocked_eq hp hs hmax
    simp [blockCurrentProcessAt, addTime, h]
  rw [hb]
  exact scheduler_core hw _

theorem insertProcQReady_core (hp : a.q.Detached p) :
    insertProcQReady a p = some { a with q := a.q.insertReady p } := by
  simp [insertProcQReady, QueueOps.insertReady, hp]

/-! ### System calls -/

theorem createProcessCall_core (hwf : a.q.Wf)
    (hacc : a.q.free ≠ [] → accessible (a.pS cur).regA1) :
    Refines (fun a' d => a'.core = d) (createProcessCall hw a cur) (a.core.create cur) := by
  obtain ⟨sh, f⟩ := a
  intro d hd
  cases hf : f.free with
  | nil =>
      obtain rfl : Core.run _ cur = d := by simpa [Core.create, Kernel.core, hf] using hd
      refine ⟨_, by
        simp [createProcessCall, allocPcb, QueueOps.allocPcbRing, Fifos.allocPcbRing, hf]; rfl, ?_⟩
      simp [loadProcess, Kernel.core, Core.run, Cpu.mode, setState]
  | cons tmp l =>
      have hd' : Core.create (Kernel.core ⟨sh, f⟩) cur = some d := hd
      simp only [Core.create, Kernel.core, hf] at hd'
      obtain ⟨tree, htree, hd'⟩ := Option.bind_eq_some_iff.mp hd'
      obtain rfl := Option.some.inj hd'
      have hdet : Fifos.Detached { f with free := l } tmp := by
        have hn := hwf.free_nodup
        rw [hf] at hn
        exact ⟨(List.nodup_cons.mp hn).1, hwf.disjoint (by simp [hf]),
          hwf.pSemAdd_free tmp (by simp [hf])⟩
      have hacc := hacc (by simp [hf])
      have hins := Fifos.insertReady_eq hdet
      simp [createProcessCall, allocPcb, QueueOps.allocPcbRing, Fifos.allocPcbRing, hf, hacc,
        guard, insertProcQReady, setState, hins, htree, loadProcess, Kernel.core, Core.created, Core.run,
        Cpu.mode, Fifos.insertReady]

theorem wake_core (hp : a.q.Detached p) :
    Reaches (wake a (some p)) (a.core.wake p) :=
  ⟨_, insertProcQReady_core hp, rfl⟩

theorem passeren_core (hp : a.q.Detached cur) (hacc : accessible (a.pS cur).regA1) :
    Reaches (passeren hw a cur)
      (let c := a.core.addMem (a.pS cur).regA1 (-1)
       if c.mem (a.pS cur).regA1 < 0 then c.block (a.pS cur).regA1 cur else c.run cur) := by
  have hs := Core.accessible_ne hacc
  let b := a.setMem (a.pS cur).regA1 (a.mem (a.pS cur).regA1 - 1)
  have hb : b.core = a.core.addMem (a.pS cur).regA1 (-1) := rfl
  have hpas : passeren hw a cur = if b.mem (a.pS cur).regA1 < 0 then
      (do scheduler hw (← blockCurrentProcessAt hw b (a.pS cur).regA1 cur))
      else some (loadProcess b cur) := by
    simp only [passeren, guard, hacc, if_true]
    rfl
  rw [hpas, ← hb]
  refine .ite_ite (fun _ => ?_) fun _ => ?_
  · exact block_core hp hs.1 hs.2
  · exact ⟨_, rfl, rfl⟩

theorem verhogen_core (hwf : a.q.Wf) (hacc : accessible (a.pS cur).regA1) :
    Reaches (verhogen a cur)
      (let c := a.core.addMem (a.pS cur).regA1 1
       match c.q.blocked (a.pS cur).regA1 with
       | [] => c.run cur
       | p :: _ => ((c.unblock (a.pS cur).regA1).wake p).run cur) := by
  have hs := Core.accessible_ne hacc
  let b := a.setMem (a.pS cur).regA1 (a.mem (a.pS cur).regA1 + 1)
  have hb : b.core = a.core.addMem (a.pS cur).regA1 1 := rfl
  have hver : verhogen a cur =
      (wake { b with q := (a.q.removeBlocked (a.pS cur).regA1).2 }
        (a.q.removeBlocked (a.pS cur).regA1).1).bind fun k => some (loadProcess k cur) := by
    simp only [verhogen, guard, hacc, if_true, setMem,
      Fifos.removeBlocked_eq (f := a.q) hs.2]
    rfl
  rw [hver, ← hb]
  cases hq : a.q.blocked (a.pS cur).regA1 with
  | nil =>
      have : b.core.q.blocked (a.pS cur).regA1 = [] := hq
      simp only [this, Fifos.removeBlocked, hq]
      exact ⟨_, rfl, rfl⟩
  | cons p l =>
      have hdet := hwf.removeBlocked_detached hq
      have : b.core.q.blocked (a.pS cur).regA1 = p :: l := hq
      have hfst : (a.q.removeBlocked (a.pS cur).regA1).1 = some p := by
        simp [Fifos.removeBlocked, hq]
      simp only [this, hfst]
      obtain ⟨b', hb', hcore⟩ :=
        wake_core (a := { b with q := (a.q.removeBlocked (a.pS cur).regA1).2 }) hdet
      rw [hb']
      refine ⟨_, rfl, ?_⟩
      show Core.run b'.core cur = _
      rw [hcore]
      rfl

theorem waitForIo_core {i : Word} (hp : a.q.Detached cur)
    (hi : getSemIndex (a.pS cur).regA1 (a.pS cur).regA2 ((a.pS cur).regA3 ≠ 0) = some i)
    (hlt : i.toNat < deviceNum) :
    Reaches (waitForIo hw a cur)
      (((a.core.addMem (a.layout.semAdd i) (-1)).addSoft 1).block (a.layout.semAdd i) cur) := by
  have hs := Core.accessible_ne (a.layout.isDevice_semAdd hlt).accessible
  let b := { a.setMem (a.layout.semAdd i) (a.mem (a.layout.semAdd i) - 1) with
    softBlockedCount := a.softBlockedCount + 1 }
  have hio : waitForIo hw a cur =
      (do scheduler hw (← blockCurrentProcessAt hw b (a.layout.semAdd i) cur)) := by
    simp only [waitForIo, hi, guard, hlt, if_true]
    rfl
  rw [hio]
  exact block_core (a := b) hp hs.1 hs.2

theorem waitForClock_core (hp : a.q.Detached cur) :
    Reaches (waitForClock hw a cur)
      (let c := a.core.addMem a.layout.clockSemaphore (-1)
       if c.mem a.layout.clockSemaphore < 0 then
         (c.addSoft 1).block a.layout.clockSemaphore cur
       else c.run cur) := by
  have hs := Core.accessible_ne a.layout.isDevice_clockSemaphore.accessible
  refine .ite_ite (fun _ => ?_) fun _ => ⟨_, rfl, rfl⟩
  let b := { a.setMem a.layout.clockSemaphore (a.mem a.layout.clockSemaphore - 1) with
    softBlockedCount := a.softBlockedCount + 1 }
  exact block_core (a := b) hp hs.1 hs.2

/-! ### Termination -/

theorem releasePcb_core (hwf : a.q.Wf) (p : PcbPtr) : Reaches (releasePcb a p) (a.core.kill p) := by
  by_cases hp : a.q.pSemAdd p ≠ 0
  · have hfree := Fifos.freePcbRing_eq (f := a.q.outBlocked p) (p := p)
      (fun hr => hp (hwf.pSemAdd_ready p hr)) (by simp [Fifos.outBlocked])
    have hk : a.core.kill p =
        Core.free { a.core.addMem (a.q.pSemAdd p) 1 with q := a.q.outBlocked p } p := if_pos hp
    have hr : releasePcb a p =
        freePcb { a.setMem (a.q.pSemAdd p) (a.mem (a.q.pSemAdd p) + 1) with
          q := a.q.outBlocked p } p := by
      show (if a.q.pSemAdd p ≠ 0 then _ else _) = _
      rw [if_pos hp]
      simp only [setMem, Fifos.outBlocked_eq hp]
      rfl
    rw [hr, hk, freePcb, hfree]
    exact ⟨_, rfl, rfl⟩
  · have hfree := Fifos.freePcbRing_eq (f := (a.q.outReady p).2) (p := p)
      hwf.ready_nodup.not_mem_erase (not_not.mp hp)
    have hk : a.core.kill p = Core.free { a.core with q := (a.q.outReady p).2 } p := if_neg hp
    have hr : releasePcb a p = freePcb { a with q := (a.q.outReady p).2 } p := by
      show (if a.q.pSemAdd p ≠ 0 then _ else _) = _
      rw [if_neg hp]
      rfl
    rw [hr, hk, freePcb, hfree]
    exact ⟨_, rfl, rfl⟩

mutual

theorem terminateProcessRec_core : ∀ {fuel : Nat} {a : Kernel Fifos} {p : PcbPtr}
    {vs : List PcbPtr} {t : Tree}, a.q.Wf → treeWalk fuel a.tree p = some (vs, t) →
      Reaches (terminateProcessRec fuel a p) (a.core.killAll vs t)
  | 0, _, _, _, _, _, h => nomatch h
  | fuel + 1, a, p, vs, t, hwf, h => by
      obtain ⟨⟨vs, t⟩, h, ⟨⟩⟩ := Option.bind_eq_some_iff.mp h
      obtain ⟨b, hb, hcore⟩ :=
        terminateChildren_core (a := { a with tree := outChild a.tree p }) hwf h
      have hwf' : b.core.q.Wf := by
        rw [hcore]
        exact Core.killAll_wf vs hwf
      obtain ⟨b', hb', hcore'⟩ := releasePcb_core hwf' p
      refine ⟨b', ?_, ?_⟩
      · exact Option.bind_eq_some_iff.mpr ⟨b, hb, hb'⟩
      · show b'.core = _
        rw [hcore', hcore]
        exact Core.killAll_concat _ vs t p

theorem terminateChildren_core : ∀ {fuel : Nat} {a : Kernel Fifos} {p : PcbPtr}
    {vs : List PcbPtr} {t : Tree}, a.q.Wf → treeWalkChildren fuel a.tree p = some (vs, t) →
      Reaches (terminateChildren fuel a p) (a.core.killAll vs t)
  | 0, _, _, _, _, _, h => nomatch h
  | fuel + 1, a, p, vs, t, hwf, h => by
      cases hc : a.tree.pChild p with
      | none =>
          simp only [treeWalkChildren, removeChild, hc] at h
          obtain ⟨rfl, rfl⟩ := Prod.mk.inj (Option.some.inj h)
          exact ⟨a, by simp [terminateChildren, emptyChild, hc], rfl⟩
      | some child =>
          simp only [treeWalkChildren, removeChild, hc] at h
          obtain ⟨⟨vs, t₁⟩, h₁, h⟩ := Option.bind_eq_some_iff.mp h
          obtain ⟨⟨ws, t₂⟩, h₂, ⟨⟩⟩ := Option.bind_eq_some_iff.mp h
          let k := unlinkChild (a.tree.setChild p (a.tree.pNextSib child)) child
          obtain ⟨b, hb, hcore⟩ := terminateProcessRec_core (a := { a with tree := k }) hwf h₁
          have hwf' : b.core.q.Wf := by
            rw [hcore]
            exact Core.killAll_wf vs hwf
          have htree : b.tree = t₁ := by
            have := congrArg Core.tree hcore
            rwa [Core.killAll_tree] at this
          obtain ⟨b', hb', hcore'⟩ := terminateChildren_core hwf' (htree ▸ h₂)
          refine ⟨b', ?_, ?_⟩
          · simp only [terminateChildren, emptyChild, hc, removeChild]
            exact Option.bind_eq_some_iff.mpr ⟨b, hb, hb'⟩
          · show b'.core = _
            rw [hcore', hcore]
            exact Core.killAll_append _ vs ws t₁ t₂

end

theorem terminateProcess_core (hwf : a.q.Wf) {d : Core} (h : a.core.terminate fuel p = some d) :
    Reaches (terminateProcess fuel hw a p) d := by
  obtain ⟨⟨vs, t⟩, hw', ⟨⟩⟩ := Option.bind_eq_some_iff.mp h
  obtain ⟨b, hb, hcore⟩ := terminateProcessRec_core hwf hw'
  obtain ⟨b', hb', hcore'⟩ := scheduler_core hw b
  exact ⟨b', Option.bind_eq_some_iff.mpr ⟨b, hb, hb'⟩, hcore'.trans (by rw [hcore])⟩

/-! ### Interrupts -/

theorem resumeAfterInterrupt_core (hw : Hw) (a : Kernel Fifos) :
    Reaches (resumeAfterInterrupt hw a) a.core.back := by
  obtain ⟨sh, f⟩ := a
  cases hcur : sh.currentProcess with
  | none =>
      have hb : Core.back (Kernel.core ⟨sh, f⟩) = Core.dispatch (Kernel.core ⟨sh, f⟩) := by
        simp [Core.back, Kernel.core, hcur]
      rw [hb, show resumeAfterInterrupt hw (⟨sh, f⟩ : Kernel Fifos) = scheduler hw ⟨sh, f⟩ by
        simp [resumeAfterInterrupt, hcur]]
      exact scheduler_core hw _
  | some cur =>
      refine ⟨_, by simp [resumeAfterInterrupt, hcur]; rfl, ?_⟩
      simp [Core.back, Kernel.core, hcur]
      rfl

theorem handlePLTInterrupt_core
    (hp : ∀ p, a.currentProcess = some p → a.q.Detached p) :
    Reaches (handlePLTInterrupt hw a) a.core.preempt := by
  obtain ⟨sh, f⟩ := a
  cases hcur : sh.currentProcess with
  | none =>
      refine ⟨_, by simp [handlePLTInterrupt, setTimer, hcur]; rfl, ?_⟩
      simp [Core.preempt, Kernel.core, hcur, Kernel.panic, Cpu.mode]
  | some cur =>
      let b : Kernel Fifos :=
        ((({ toShared := sh, q := f } : Kernel Fifos).setTimer (5000 * hw.timeScale)).addTime cur
          (hw.stopT - sh.startT)).setState cur (copyState sh.biosDataPage (sh.pS cur))
      have hplt : handlePLTInterrupt hw (⟨sh, f⟩ : Kernel Fifos) =
          (insertProcQReady b cur).bind (scheduler hw) := by
        have h : (({ toShared := sh, q := f } : Kernel Fifos).setTimer
            (5000 * hw.timeScale)).currentProcess = some cur := hcur
        simp only [handlePLTInterrupt, h]
        rfl
      obtain ⟨b', hb', hcore⟩ := scheduler_core hw { b with q := f.insertReady cur }
      refine ⟨b', ?_, hcore.trans ?_⟩
      · rw [hplt, insertProcQReady_core (a := b) (hp cur hcur)]
        exact hb'
      · have hc : Core.current (Kernel.core ⟨sh, f⟩) = some cur := hcur
        simp only [Core.preempt, hc]
        rfl

theorem clockLoop_core : ∀ (l : List PcbPtr) {fuel : Nat} {a : Kernel Fifos}, a.q.Wf →
    a.q.blocked a.layout.clockSemaphore = l → l.length < fuel →
      Yields (clockLoop fuel a) fun a' =>
        a'.core = l.foldl (fun c p => ((c.unblock a.layout.clockSemaphore).wake p).addSoft (-1))
            a.core ∧ a'.layout = a.layout
  | _, 0, _, _, _, hf => absurd hf (Nat.not_lt_zero _)
  | [], fuel + 1, a, hwf, hb, _ => by
      have hs := Core.accessible_ne a.layout.isDevice_clockSemaphore.accessible
      have hrem : a.q.removeBlocked a.layout.clockSemaphore = (none, a.q) := by
        simp [Fifos.removeBlocked, hb]
      refine ⟨a, ?_, rfl, rfl⟩
      simp only [clockLoop, Fifos.removeBlocked_eq hs.2, hrem]
      rfl
  | p :: l, fuel + 1, a, hwf, hb, hf => by
      have hs := Core.accessible_ne a.layout.isDevice_clockSemaphore.accessible
      have hdet := hwf.removeBlocked_detached hb
      let f' := (a.q.removeBlocked a.layout.clockSemaphore).2
      have hrem : a.q.removeBlocked a.layout.clockSemaphore = (some p, f') := by
        simp [f', Fifos.removeBlocked, hb]
      let b : Kernel Fifos := { a with
        q := f'.insertReady p, softBlockedCount := a.softBlockedCount - 1 }
      have hloop : clockLoop (fuel + 1) a = clockLoop fuel b := by
        simp only [clockLoop, Fifos.removeBlocked_eq hs.2, hrem]
        have := insertProcQReady_core (a := { a with q := f' }) hdet
        simp only [Option.bind_eq_bind, Option.bind_some, this]
        rfl
      have hcore : b.core =
          ((a.core.unblock a.layout.clockSemaphore).wake p).addSoft (-1) := rfl
      have hblocked : b.q.blocked a.layout.clockSemaphore = l := by
        have := Core.wake_unblock_blocked (c := a.core) hb
        have hq : b.q.blocked = Function.update a.core.q.blocked a.layout.clockSemaphore l := this
        rw [hq, Function.update_self]
      obtain ⟨a', ha', hc', hl'⟩ := clockLoop_core l (a := b)
        ((hwf.removeBlocked _).insertReady hdet) hblocked (by simpa using hf)
      refine ⟨a', hloop.trans ha', ?_, hl'⟩
      rw [hc', hcore]
      rfl

theorem handleIntervalTimerInterrupt_core (hwf : a.q.Wf) :
    Reaches (handleIntervalTimerInterrupt a)
      { a.core.drain a.layout.clockSemaphore with
        mem := store (a.core.drain a.layout.clockSemaphore).mem
          a.layout.clockSemaphore 0 } := by
  have hlen : (a.q.blocked a.layout.clockSemaphore).length < maxProc + 1 :=
    Nat.lt_succ_of_le (length_le_maxProc (hwf.blocked_nodup _))
  obtain ⟨b, hb, hcore, hlay⟩ :=
    clockLoop_core _ (a := { a with intervalTimer := 100000 }) hwf rfl hlen
  have hdrain : b.core = a.core.drain a.layout.clockSemaphore := hcore
  refine ⟨b.setMem b.layout.clockSemaphore 0, ?_, ?_⟩
  · simp only [handleIntervalTimerInterrupt, hb]
    rfl
  · rw [hlay, ← hdrain]
    rfl

theorem releaseSemAndUpdateStatus_core (hwf : a.q.Wf) {i : Word} (status : Word)
    (hlt : i.toNat < deviceNum) :
    Yields (releaseSemAndUpdateStatus a i status) fun a' =>
      a'.core = a.core.release (a.layout.semAdd i) := by
  have hs := Core.accessible_ne (a.layout.isDevice_semAdd hlt).accessible
  let b : Kernel Fifos := { a with softBlockedCount := a.softBlockedCount - 1 }
  have hb : b.core = a.core.addSoft (-1) := rfl
  by_cases hneg : a.mem (a.layout.semAdd i) ≤ 0
  · have hrel : a.core.release (a.layout.semAdd i) =
        match a.q.blocked (a.layout.semAdd i) with
        | [] => b.core
        | p :: _ => ((b.core.unblock (a.layout.semAdd i)).wake p).addMem
            (a.layout.semAdd i) 1 := if_pos hneg
    rw [hrel]
    cases hq : a.q.blocked (a.layout.semAdd i) with
    | nil =>
        refine ⟨b, ?_, rfl⟩
        have hrem : a.q.removeBlocked (a.layout.semAdd i) = (none, a.q) := by
          simp [Fifos.removeBlocked, hq]
        simp [releaseSemAndUpdateStatus, guard, hlt, hneg, Fifos.removeBlocked_eq hs.2, hrem]
        rfl
    | cons p l =>
        let f' := (a.q.removeBlocked (a.layout.semAdd i)).2
        have hrem : a.q.removeBlocked (a.layout.semAdd i) = (some p, f') := by
          simp [f', Fifos.removeBlocked, hq]
        let b' : Kernel Fifos := ({ b with q := f' }).setState p ((a.pS p).setV0 status)
        have hins := insertProcQReady_core (a := b') (hwf.removeBlocked_detached hq)
        refine ⟨{ b' with q := f'.insertReady p }.setMem (a.layout.semAdd i)
          (a.mem (a.layout.semAdd i) + 1), ?_, rfl⟩
        simp only [releaseSemAndUpdateStatus, guard, hlt, if_true, if_pos hneg,
          Fifos.removeBlocked_eq hs.2, hrem, pure_bind, Option.bind_eq_bind, Option.bind_some]
        exact Option.bind_eq_some_iff.mpr ⟨_, hins, rfl⟩
  · refine ⟨b, ?_, (if_neg hneg).symm⟩
    simp only [releaseSemAndUpdateStatus, guard, hlt, if_true, if_neg hneg]
    rfl

end Lists

/-! ## What a returning handler has found -/

section Generic

variable {Q : Type} [QueueOps Q]

theorem freePcb_tree {k k' : Kernel Q} {p : PcbPtr} (h : freePcb k p = some k') :
    k'.tree = k.tree := by
  obtain ⟨q, -, ⟨⟩⟩ := Option.bind_eq_some_iff.mp h
  rfl

theorem releasePcb_tree {k k' : Kernel Q} {p : PcbPtr} (h : releasePcb k p = some k') :
    k'.tree = k.tree := by
  unfold releasePcb at h
  dsimp only at h
  split at h
  · obtain ⟨⟨r, q⟩, -, h⟩ := Option.bind_eq_some_iff.mp h
    have := freePcb_tree h
    exact this
  · obtain ⟨⟨r, q⟩, -, h⟩ := Option.bind_eq_some_iff.mp h
    have := freePcb_tree h
    exact this

theorem insertProcQReady_tree {k k' : Kernel Q} {p : PcbPtr} (h : insertProcQReady k p = some k') :
    k'.tree = k.tree := by
  obtain ⟨q, -, ⟨⟩⟩ := Option.bind_eq_some_iff.mp h
  rfl

mutual

theorem terminateProcessRec_walk : ∀ {fuel : Nat} {k k' : Kernel Q} {p : PcbPtr},
    terminateProcessRec fuel k p = some k' → ∃ vs, treeWalk fuel k.tree p = some (vs, k'.tree)
  | 0, _, _, _, h => nomatch h
  | fuel + 1, k, k', p, h => by
      obtain ⟨k₁, h₁, h₂⟩ := Option.bind_eq_some_iff.mp h
      obtain ⟨vs, hvs⟩ := terminateChildren_walk h₁
      refine ⟨vs ++ [p], ?_⟩
      rw [releasePcb_tree h₂]
      exact Option.bind_eq_some_iff.mpr ⟨_, hvs, rfl⟩

theorem terminateChildren_walk : ∀ {fuel : Nat} {k k' : Kernel Q} {p : PcbPtr},
    terminateChildren fuel k p = some k' →
      ∃ vs, treeWalkChildren fuel k.tree p = some (vs, k'.tree)
  | 0, _, _, _, h => nomatch h
  | fuel + 1, k, k', p, h => by
      cases hc : k.tree.pChild p with
      | none =>
          simp only [terminateChildren, emptyChild, hc, Option.isNone_none, if_true] at h
          obtain rfl := Option.some.inj h
          exact ⟨[], by simp [treeWalkChildren, removeChild, hc]⟩
      | some child =>
          simp only [terminateChildren, emptyChild, removeChild, hc, Option.isNone_some,
            Bool.false_eq_true, if_false] at h
          obtain ⟨k₁, h₁, h₂⟩ := Option.bind_eq_some_iff.mp h
          obtain ⟨vs, hvs⟩ := terminateProcessRec_walk h₁
          obtain ⟨ws, hws⟩ := terminateChildren_walk h₂
          refine ⟨vs ++ ws, ?_⟩
          simp only [treeWalkChildren, removeChild, hc]
          exact Option.bind_eq_some_iff.mpr
            ⟨_, hvs, Option.bind_eq_some_iff.mpr ⟨_, hws, rfl⟩⟩

end

end Generic

theorem Cpu.mode_of_takesException {cpu : Cpu} {cause : Word}
    (h : takesException cpu cause = true) : cpu.mode = .busy ∨ cpu.mode = .waiting := by
  rcases Bool.or_eq_true_iff.mp h with hb | hw
  · exact .inl (Cpu.mode_eq_busy.mpr hb)
  · exact .inr (Cpu.mode_eq_waiting.mpr (of_decide_eq_true (Bool.and_eq_true_iff.mp hw).1))

/-! ## One event -/

namespace KSim

variable {c c' : Kernel Queues} {a : Kernel Fifos} {hw : Hw} {cur p : PcbPtr} {fuel : Nat}

theorem terminate_tracks (h : KSim c a) (hwf : a.q.Wf)
    (hc : Pandos.terminateProcess fuel hw c p = some c') :
    ∃ a', Pandos.terminateProcess fuel hw a p = some a' ∧
      a.core.terminate fuel p = some a'.core := by
  obtain ⟨c₁, h₁, -⟩ := Option.bind_eq_some_iff.mp hc
  obtain ⟨vs, hvs⟩ := terminateProcessRec_walk h₁
  rw [show c.tree = a.tree from congrArg Shared.tree h.1] at hvs
  have hterm : a.core.terminate fuel p = some (a.core.killAll vs c₁.tree).dispatch :=
    Option.bind_eq_some_iff.mpr ⟨_, hvs, rfl⟩
  obtain ⟨a', ha', hcore⟩ := terminateProcess_core hwf hterm
  exact ⟨a', ha', hterm.trans (congrArg some hcore.symm)⟩

theorem create_tracks (h : KSim c a) (hwf : a.q.Wf)
    (hc : Pandos.createProcessCall hw c cur = some c') :
    ∃ a', Pandos.createProcessCall hw a cur = some a' ∧ a.core.create cur = some a'.core := by
  have hpS : c.pS = a.pS := congrArg Shared.pS h.1
  cases hf : a.q.free with
  | nil =>
      have hcr : a.core.create cur = some (a.core.run cur) := by
        simp [Core.create, Kernel.core, hf]
      obtain ⟨a', ha', hcore⟩ := createProcessCall_core hwf (fun hne => absurd hf hne) _ hcr
      exact ⟨a', ha', hcr.trans (congrArg some hcore.symm)⟩
  | cons tmp l =>
      have hal : Pandos.allocPcb a = some (some tmp, { a with
          q := { a.q with free := l }
          tree := a.tree.clear tmp
          pSupportStruct := Function.update a.pSupportStruct tmp 0
          pTime := Function.update a.pTime tmp 0
          processCount := a.processCount + 1 }) := by
        simp [Pandos.allocPcb, QueueOps.allocPcbRing, Fifos.allocPcbRing, hf]
      obtain ⟨⟨r, c₁⟩, hc₁, ⟨⟩, hsim⟩ := h.allocPcb _ hal
      have htree₁ : c₁.tree = a.tree.clear tmp := congrArg Shared.tree hsim.1
      have hpS₁ : c₁.pS = a.pS := by
        have := congrArg Shared.pS hsim.1
        exact this
      obtain ⟨⟨r, c₁'⟩, hc₁', hc⟩ := Option.bind_eq_some_iff.mp hc
      obtain ⟨⟨⟩⟩ := hc₁.symm.trans hc₁'
      obtain ⟨hacc, hc⟩ := guard_bind_eq_some.mp hc
      obtain ⟨c₂, hc₂, hc⟩ := Option.bind_eq_some_iff.mp hc
      obtain ⟨tree, htree, -⟩ := Option.bind_eq_some_iff.mp hc
      rw [insertProcQReady_tree hc₂] at htree
      have htree' : insertChild (a.tree.clear tmp) cur tmp = some tree := htree₁ ▸ htree
      have hacc' : accessible (a.pS cur).regA1 := hpS₁ ▸ hacc
      have hcr : ∃ d, a.core.create cur = some d := by
        simp [Core.create, Kernel.core, hf, htree']
      obtain ⟨d, hd⟩ := hcr
      have hcall : Refines _ (Pandos.createProcessCall hw a cur) _ :=
        createProcessCall_core hwf fun _ => hacc'
      obtain ⟨a', ha', hcore⟩ := hcall d hd
      exact ⟨a', ha', hd.trans (congrArg some hcore.symm)⟩

/-- Where `x` returns over pointers, `y` does so over lists, with the effect `d`. -/
def Tracks (x : Option (Kernel Queues)) (y : Option (Kernel Fifos)) (d : Option Core) : Prop :=
  ∀ c', x = some c' → ∃ a', y = some a' ∧ d = some a'.core

theorem Tracks.of_reaches {x : Option (Kernel Queues)} {y : Option (Kernel Fifos)}
    {d : Option Core} {e : Core} (hy : Reaches y e) (hd : d = some e) : Tracks x y d := by
  intro c' _
  obtain ⟨a', ha', hcore⟩ := hy
  exact ⟨a', ha', hd.trans (congrArg some hcore.symm)⟩

theorem Tracks.of_imp {P : Prop} {x : Option (Kernel Queues)} {y : Option (Kernel Fifos)}
    {d : Option Core} (hx : ∀ c', x = some c' → P) (h : P → Tracks x y d) : Tracks x y d :=
  fun c' hc => h (hx c' hc) c' hc

theorem Tracks.ite {P : Prop} [Decidable P] {x x' : Option (Kernel Queues)}
    {y y' : Option (Kernel Fifos)} {d : Core} {act act' : Action}
    (ht : P → Tracks x y (d.effect fuel act)) (hf : ¬ P → Tracks x' y' (d.effect fuel act')) :
    Tracks (if P then x else x') (if P then y else y')
      (d.effect fuel (if P then act else act')) := by
  by_cases hP : P
  · simpa [hP] using ht hP
  · simpa [hP] using hf hP

theorem passeren_tracks (h : KSim c a) (hcur : a.currentProcess = some cur)
    (hp : a.q.Detached cur) :
    Tracks (Pandos.passeren hw c cur) (Pandos.passeren hw a cur)
      (a.core.effect fuel (.passeren (a.pS cur).regA1)) := by
  refine .of_imp (P := accessible (a.pS cur).regA1) (fun c' hc => ?_) fun hacc => ?_
  · rw [← show c.pS = a.pS from congrArg Shared.pS h.1]
    exact (guard_bind_eq_some.mp hc).1
  · refine .of_reaches (passeren_core hp hacc) ?_
    simp only [Core.effect, Kernel.core, hcur, guard, hacc, if_true, pure_bind,
      Option.bind_eq_bind, Option.bind_some]
    split <;> rfl

theorem verhogen_tracks (h : KSim c a) (hwf : a.q.Wf) (hcur : a.currentProcess = some cur) :
    Tracks (Pandos.verhogen c cur) (Pandos.verhogen a cur)
      (a.core.effect fuel (.verhogen (a.pS cur).regA1)) := by
  refine .of_imp (P := accessible (a.pS cur).regA1) (fun c' hc => ?_) fun hacc => ?_
  · rw [← show c.pS = a.pS from congrArg Shared.pS h.1]
    exact (guard_bind_eq_some.mp hc).1
  · refine .of_reaches (verhogen_core hwf hacc) ?_
    cases hb : a.q.blocked (a.pS cur).regA1 with
    | nil => simp [Core.effect, Kernel.core, hcur, guard, hacc, Core.addMem, hb]
    | cons p l => simp [Core.effect, Kernel.core, hcur, guard, hacc, Core.addMem, hb]

theorem waitForIo_tracks (h : KSim c a) (hcur : a.currentProcess = some cur)
    (hp : a.q.Detached cur) :
    Tracks (Pandos.waitForIo hw c cur) (Pandos.waitForIo hw a cur)
      (a.core.effect fuel
        (match getSemIndex (a.pS cur).regA1 (a.pS cur).regA2 ((a.pS cur).regA3 ≠ 0) with
         | none => .panic
         | some i => .ioWait (a.layout.semAdd i))) := by
  have hpS : c.pS = a.pS := congrArg Shared.pS h.1
  have hlay : c.layout = a.layout := congrArg Shared.layout h.1
  cases hi : getSemIndex (a.pS cur).regA1 (a.pS cur).regA2 ((a.pS cur).regA3 ≠ 0) with
  | none =>
      refine .of_reaches ⟨a.panic, by simp only [Pandos.waitForIo, hi]; rfl, rfl⟩ rfl
  | some i =>
      refine .of_imp (P := i.toNat < deviceNum) (fun c' hc => ?_) fun hlt => ?_
      · simp only [Pandos.waitForIo, hpS, hlay, hi] at hc
        exact (guard_bind_eq_some.mp hc).1
      · refine .of_reaches (waitForIo_core hp hi hlt) ?_
        have hdev : a.layout.IsDevice (a.layout.semAdd i) := a.layout.isDevice_semAdd hlt
        simp only [Core.effect, Kernel.core, hcur, guard, hdev, if_true, pure_bind,
          Option.bind_eq_bind, Option.bind_some]
        rfl

theorem waitForClock_tracks (hcur : a.currentProcess = some cur) (hp : a.q.Detached cur) :
    Tracks (Pandos.waitForClock hw c cur) (Pandos.waitForClock hw a cur)
      (a.core.effect fuel (.clockWait a.layout.clockSemaphore)) := by
  refine .of_reaches (waitForClock_core hp) ?_
  simp only [Core.effect, Kernel.core, hcur, guard, a.layout.isDevice_clockSemaphore, if_true,
    pure_bind, Option.bind_eq_bind, Option.bind_some]
  split <;> rfl

theorem passupOrDie_tracks (t : Fin 2) (h : KSim c a) (hwf : a.q.Wf) :
    Tracks (Pandos.passupOrDie fuel hw c t) (Pandos.passupOrDie fuel hw a t)
      (a.core.effect fuel (passupAction a.toShared)) := by
  obtain ⟨sh, q⟩ := c
  obtain ⟨sh', f⟩ := a
  obtain ⟨⟨⟩, h⟩ := h
  intro c' hc
  obtain ⟨cur, hcur, hc⟩ := Option.bind_eq_some_iff.mp hc
  have hcur' : sh.currentProcess = some cur := hcur
  by_cases hs : sh.pSupportStruct cur ≠ 0
  · refine ⟨_, Option.bind_eq_some_iff.mpr ⟨cur, hcur, if_pos hs⟩, ?_⟩
    simp only [passupAction, hcur', if_pos hs, Core.effect, Kernel.core, Option.bind_eq_bind,
      Option.bind_some]
    rfl
  · have hc' : Pandos.sysTermProcess fuel hw (⟨sh, q⟩ : Kernel Queues) cur = some c' :=
      (if_neg hs).symm.trans hc
    have hsim : KSim (saveState { (⟨sh, q⟩ : Kernel Queues) with biosDataPage := hw.nested } cur)
        (saveState { (⟨sh, f⟩ : Kernel Fifos) with biosDataPage := hw.nested } cur) := ⟨rfl, h⟩
    obtain ⟨a', ha', hcore⟩ := terminate_tracks hsim hwf hc'
    refine ⟨a', Option.bind_eq_some_iff.mpr ⟨cur, hcur, (if_neg hs).trans ha'⟩, ?_⟩
    simp only [passupAction, hcur', if_neg hs, Core.effect]
    exact Option.bind_eq_some_iff.mpr ⟨cur, hcur', hcore⟩

theorem syscall_tracks (h : KSim c a) (hinv : a.core.Inv)
    (hm : a.core.mode = .busy ∨ a.core.mode = .waiting) :
    Tracks (Pandos.handleNucleousSystemcalls fuel hw c)
      (Pandos.handleNucleousSystemcalls fuel hw a)
      (a.core.effect fuel (syscallAction a.toShared a.biosDataPage)) := by
  obtain ⟨sh, q⟩ := c
  obtain ⟨sh', f⟩ := a
  obtain ⟨⟨⟩, h⟩ := h
  have hsim : KSim ⟨sh, q⟩ ⟨sh, f⟩ := ⟨rfl, h⟩
  unfold Pandos.handleNucleousSystemcalls syscallAction
  dsimp only
  by_cases hmode : sh.biosDataPage.status &&& userPOn ≠ 0
  · simp only [if_pos hmode]
    exact passupOrDie_tracks _ hsim hinv.wf
  simp only [if_neg hmode]
  cases hcur : sh.currentProcess with
  | none => exact fun c' hc => nomatch hc
  | some cur =>
      simp only [Option.bind_eq_bind, Option.bind_some]
      have hp : f.Detached cur := hinv.detached hm hcur
      let s : Kernel Fifos := saveState ⟨sh, f⟩ cur
      have hsave : KSim (saveState ⟨sh, q⟩ cur) s := ⟨rfl, h⟩
      have hreg : s.pS cur = { sh.biosDataPage with pcEpc := sh.biosDataPage.pcEpc + 4 } := by
        simp [s, saveState, setState]
      have hcore : s.core = Kernel.core ⟨sh, f⟩ := rfl
      have hA1 : (s.pS cur).regA1 = sh.biosDataPage.regA1 := by rw [hreg]; rfl
      have hA2 : (s.pS cur).regA2 = sh.biosDataPage.regA2 := by rw [hreg]; rfl
      have hA3 : (s.pS cur).regA3 = sh.biosDataPage.regA3 := by rw [hreg]; rfl
      refine .ite (fun _ => ?_) fun _ => ?_
      · intro c' hc
        obtain ⟨a', ha', he⟩ := create_tracks (a := s) hsave hinv.wf hc
        exact ⟨a', ha', Option.bind_eq_some_iff.mpr ⟨cur, hcur, he⟩⟩
      refine .ite (fun _ => ?_) fun _ => ?_
      · intro c' hc
        obtain ⟨a', ha', he⟩ := terminate_tracks (a := s) hsave hinv.wf hc
        exact ⟨a', ha', Option.bind_eq_some_iff.mpr ⟨cur, hcur, he⟩⟩
      refine .ite (fun _ => ?_) fun _ => ?_
      · rw [← hA1]
        exact passeren_tracks (a := s) hsave hcur hp
      refine .ite (fun _ => ?_) fun _ => ?_
      · rw [← hA1]
        exact verhogen_tracks (a := s) hsave hinv.wf hcur
      refine .ite (fun _ => ?_) fun _ => ?_
      · rw [← hA1, ← hA2, ← hA3]
        exact waitForIo_tracks (a := s) hsave hcur hp
      refine .ite (fun _ => ?_) fun _ => ?_
      · exact .of_reaches ⟨_, rfl, rfl⟩ (Option.bind_eq_some_iff.mpr ⟨cur, hcur, rfl⟩)
      refine .ite (fun _ => ?_) fun _ => ?_
      · exact waitForClock_tracks (a := s) hcur hp
      refine .ite (fun _ => ?_) fun _ => ?_
      · exact .of_reaches ⟨_, rfl, rfl⟩ (Option.bind_eq_some_iff.mpr ⟨cur, hcur, rfl⟩)
      exact passupOrDie_tracks (a := s) _ hsave hinv.wf

theorem resume_tracks (hw : Hw) (x : Option (Kernel Queues)) (a : Kernel Fifos) {d : Option Core}
    (hd : d = some a.core.back) : Tracks x (Pandos.resumeAfterInterrupt hw a) d :=
  .of_reaches (resumeAfterInterrupt_core hw a) hd

theorem handleDeviceInterrupt_tracks {line i : Word} (h : KSim c a) (hwf : a.q.Wf)
    (hdev : a.devReg = hw.devReg) (hi : deviceIndex hw line = some i)
    (hc : Pandos.handleDeviceInterrupt hw c line = some c') :
    ∃ a', Pandos.handleDeviceInterrupt hw a line = some a' ∧
      a.layout.IsDevice (a.layout.semAdd i) ∧
      a'.core = a.core.release (a.layout.semAdd i) := by
  have hdevc : c.devReg = hw.devReg := (congrArg Shared.devReg h.1).trans hdev
  simp only [deviceIndex] at hi
  simp only [Pandos.handleDeviceInterrupt, hdevc, hi] at hc
  obtain ⟨c₁, hc₁, -⟩ := Option.bind_eq_some_iff.mp hc
  have hlt := (guard_bind_eq_some.mp hc₁).1
  simp only [Pandos.handleDeviceInterrupt, hdev, hi]
  generalize (if decide (line = 7) = true then
    getTermStatus (hw.devReg line (getDeviceNoFromLine (hw.bitmap line)))
    else (hw.devReg line (getDeviceNoFromLine (hw.bitmap line))).status) = status
  generalize (if decide (line = 7) = true then
    acknowledgeTermInterrupt (hw.devReg line (getDeviceNoFromLine (hw.bitmap line)))
    else acknowledgeDTPInterrupt (hw.devReg line (getDeviceNoFromLine (hw.bitmap line)))) = reg
  let a' := setDevReg a line (getDeviceNoFromLine (hw.bitmap line)) reg
  have hwf' : a'.q.Wf := hwf
  have hrel : Yields (Pandos.releaseSemAndUpdateStatus a' i status) _ :=
    releaseSemAndUpdateStatus_core hwf' status hlt
  obtain ⟨b, hb, hcore⟩ := hrel
  exact ⟨_, Option.bind_eq_some_iff.mpr ⟨b, hb, rfl⟩, a.layout.isDevice_semAdd hlt, hcore⟩

theorem interrupt_tracks (h : KSim c a) (hinv : a.core.Inv)
    (hm : a.core.mode = .busy ∨ a.core.mode = .waiting) (hdev : a.devReg = hw.devReg) :
    Tracks (Pandos.handleInterrupts hw c) (Pandos.handleInterrupts hw a)
      (a.core.effect fuel (interruptAction a.toShared a.biosDataPage hw)) := by
  obtain ⟨sh, q⟩ := c
  obtain ⟨sh', f⟩ := a
  obtain ⟨⟨⟩, h⟩ := h
  have hsim : KSim ⟨sh, q⟩ ⟨sh, f⟩ := ⟨rfl, h⟩
  unfold Pandos.handleInterrupts interruptAction
  dsimp only
  cases hl : pendingLine sh.biosDataPage.cause with
  | none => exact resume_tracks hw _ _ rfl
  | some line =>
      refine .ite (fun _ => ?_) fun hplt => ?_
      · exact .of_reaches (handlePLTInterrupt_core fun p hp => hinv.detached hm hp) rfl
      refine .ite (fun _ => ?_) fun htick => ?_
      · obtain ⟨b, hb, hcore⟩ := handleIntervalTimerInterrupt_core (a := ⟨sh, f⟩) hinv.wf
        simp only [hb, Option.bind_eq_bind, Option.bind_some]
        refine resume_tracks hw _ _ ?_
        rw [hcore]
        have hclk : (Kernel.core ⟨sh, f⟩).layout.IsDevice sh.layout.clockSemaphore :=
          sh.layout.isDevice_clockSemaphore
        simp only [Core.effect, guard, hclk, if_true, pure_bind]
        rfl
      · obtain ⟨i, hi⟩ := Option.isSome_iff_exists.mp (deviceIndex_isSome hl hplt htick)
        intro c' hc
        obtain ⟨c₁, hc₁, -⟩ := Option.bind_eq_some_iff.mp hc
        obtain ⟨b, hb, hacc, hcore⟩ :=
          handleDeviceInterrupt_tracks hsim hinv.wf hdev hi hc₁
        obtain ⟨a', ha', hcore'⟩ := resumeAfterInterrupt_core hw b
        refine ⟨a', Option.bind_eq_some_iff.mpr ⟨b, hb, ha'⟩, ?_⟩
        simp only [hi, Core.effect]
        rw [hcore', hcore]
        exact guard_bind_eq_some.mpr ⟨hacc, rfl⟩

theorem exception_tracks (h : KSim c a) (hinv : a.core.Inv)
    (hm : a.core.mode = .busy ∨ a.core.mode = .waiting) (hdev : a.devReg = hw.devReg) :
    Tracks (Pandos.handleExceptions fuel hw c) (Pandos.handleExceptions fuel hw a)
      (a.core.effect fuel (action a.toShared (.exception a.biosDataPage hw))) := by
  have hcause : c.biosDataPage = a.biosDataPage := congrArg Shared.biosDataPage h.1
  have hpass : ∀ t, Tracks (Pandos.passupOrDie fuel hw c t) (Pandos.passupOrDie fuel hw a t) _ :=
    fun t => passupOrDie_tracks t h hinv.wf
  unfold Pandos.handleExceptions action
  dsimp only
  rw [hcause]
  generalize causeGetExcCode a.biosDataPage.cause = excCode
  by_cases hint : excCode = excInt
  · simp only [if_pos hint]
    exact interrupt_tracks h hinv hm hdev
  simp only [if_neg hint]
  by_cases hsys : excCode = excSys
  · subst hsys
    simp only [show ¬ (excSys = excMod ∨ excSys = excTlbl ∨ excSys = excTlbs) by decide,
      show ¬ (excSys = excAdel ∨ excSys = excAdes ∨ excSys = excIbe ∨ excSys = excDbe) by decide,
      if_false, if_true]
    exact syscall_tracks h hinv hm
  simp only [if_neg hsys]
  by_cases h1 : excCode = excMod ∨ excCode = excTlbl ∨ excCode = excTlbs
  · simpa only [if_pos h1] using hpass _
  by_cases h2 : excCode = excAdel ∨ excCode = excAdes ∨ excCode = excIbe ∨ excCode = excDbe
  · simpa only [if_neg h1, if_pos h2] using hpass _
  by_cases h3 : excCode = excBp ∨ excCode = excRi ∨ excCode = excCpu ∨ excCode = excOv
  · simpa only [if_neg h1, if_neg h2, if_pos h3] using hpass _
  · simp only [if_neg h1, if_neg h2, if_neg h3]
    exact fun _ hc => nomatch hc

theorem refill_tracks (badVAddr : Word) (saved : State) (h : KSim c a) (hwf : a.q.Wf) :
    Tracks (Pandos.uTLBRefillHandler fuel hw c badVAddr)
      (Pandos.uTLBRefillHandler fuel hw a badVAddr)
      (a.core.effect fuel (action a.toShared (.refill saved badVAddr hw))) := by
  obtain ⟨sh, q⟩ := c
  obtain ⟨sh', f⟩ := a
  obtain ⟨⟨⟩, h⟩ := h
  intro c' hc
  obtain ⟨cur, hcur, hc⟩ := Option.bind_eq_some_iff.mp hc
  have hcur' : sh.currentProcess = some cur := hcur
  obtain ⟨hs, hc⟩ := guard_bind_eq_some.mp hc
  have hs' : sh.pSupportStruct cur ≠ 0 := hs
  cases hpg : getMissingPage (sh.supp (sh.pSupportStruct cur)) badVAddr with
  | none =>
      simp only [hpg] at hc
      have hsim : KSim (saveState { (⟨sh, q⟩ : Kernel Queues) with biosDataPage := hw.nested } cur)
          (saveState { (⟨sh, f⟩ : Kernel Fifos) with biosDataPage := hw.nested } cur) := ⟨rfl, h⟩
      obtain ⟨a', ha', hcore⟩ := terminate_tracks hsim hwf hc
      refine ⟨a', ?_, ?_⟩
      · refine Option.bind_eq_some_iff.mpr ⟨cur, hcur, guard_bind_eq_some.mpr ⟨hs', ?_⟩⟩
        simp only [hpg]
        exact ha'
      · simp only [action, hcur', hpg, Core.effect]
        exact Option.bind_eq_some_iff.mpr ⟨cur, hcur', hcore⟩
  | some i =>
      refine ⟨loadProcess (writeTLB ⟨sh, f⟩
        ((sh.supp (sh.pSupportStruct cur)).supPrivatePgTbl i)) cur, ?_, ?_⟩
      · refine Option.bind_eq_some_iff.mpr ⟨cur, hcur, guard_bind_eq_some.mpr ⟨hs', ?_⟩⟩
        simp only [hpg]
        rfl
      · simp only [action, hcur', hpg, Core.effect]
        exact Option.bind_eq_some_iff.mpr ⟨cur, hcur', rfl⟩

theorem step_tracks (e : Event) (h : KSim c a) (hinv : a.core.Inv) :
    Tracks (Pandos.step fuel c e) (Pandos.step fuel a e)
      (a.core.next fuel (action a.toShared e)) := by
  have hcpu : c.cpu = a.cpu := congrArg Shared.cpu h.1
  cases e with
  | store s v =>
      intro c' hc
      obtain ⟨hb, -⟩ := Option.ite_none_right_eq_some.mp hc
      rw [hcpu] at hb
      have hm : a.core.mode = .busy := Cpu.mode_eq_busy.mpr hb
      exact ⟨_, if_pos hb, if_pos (.inl hm)⟩
  | refill saved badVAddr hw =>
      intro c' hc
      obtain ⟨hb, hc⟩ := Option.ite_none_right_eq_some.mp hc
      rw [hcpu] at hb
      have hm : a.core.mode = .busy := Cpu.mode_eq_busy.mpr hb
      obtain ⟨sh, q⟩ := c
      obtain ⟨sh', f⟩ := a
      obtain ⟨⟨⟩, h⟩ := h
      have hsim : KSim { (⟨sh, q⟩ : Kernel Queues) with biosDataPage := saved }
          { (⟨sh, f⟩ : Kernel Fifos) with biosDataPage := saved } := ⟨rfl, h⟩
      obtain ⟨a', ha', he⟩ := refill_tracks badVAddr saved hsim hinv.wf c' hc
      exact ⟨a', (if_pos hb).trans ha', (if_pos (.inl hm)).trans he⟩
  | exception saved hw =>
      intro c' hc
      obtain ⟨hb, hc⟩ := Option.ite_none_right_eq_some.mp hc
      rw [hcpu] at hb
      have hm : a.core.mode = .busy ∨ a.core.mode = .waiting := Cpu.mode_of_takesException hb
      obtain ⟨sh, q⟩ := c
      obtain ⟨sh', f⟩ := a
      obtain ⟨⟨⟩, h⟩ := h
      have hsim : KSim { (⟨sh, q⟩ : Kernel Queues) with biosDataPage := saved, devReg := hw.devReg }
          { (⟨sh, f⟩ : Kernel Fifos) with biosDataPage := saved, devReg := hw.devReg } := ⟨rfl, h⟩
      obtain ⟨a', ha', he⟩ := exception_tracks hsim hinv hm rfl c' hc
      exact ⟨a', (if_pos hb).trans ha', (if_pos hm).trans he⟩

end KSim

/-! ## Runs -/

/-- The core of a state of the nucleus. -/
structure Rep (c : Kernel Queues) (d : Core) : Prop where
  queues : QRep c.q d.q
  core : d = (⟨c.toShared, d.q⟩ : Kernel Fifos).core
  inv : d.Inv

namespace Rep

variable {c c' : Kernel Queues} {d : Core}

theorem layout (h : Rep c d) : d.layout = c.layout := by rw [h.core]; rfl
theorem tree (h : Rep c d) : d.tree = c.tree := by rw [h.core]; rfl
theorem mem (h : Rep c d) : d.mem = c.mem := by rw [h.core]; rfl
theorem processCount (h : Rep c d) : d.processCount = c.processCount := by rw [h.core]; rfl
theorem softBlockedCount (h : Rep c d) : d.softBlockedCount = c.softBlockedCount := by
  rw [h.core]; rfl
theorem current (h : Rep c d) : d.current = c.currentProcess := by rw [h.core]; rfl
theorem mode (h : Rep c d) : d.mode = c.cpu.mode := by rw [h.core]; rfl

theorem mode_busy (h : Rep c d) : d.mode = .busy ↔ c.cpu.busy = true := by
  rw [h.mode]
  exact Cpu.mode_eq_busy

/-- The process that runs is in no queue. -/
theorem exists_current (h : Rep c d) (hb : c.cpu.busy) :
    ∃ cur, d.current = some cur ∧ c.currentProcess = some cur ∧ d.q.Detached cur := by
  obtain ⟨cur, hcur, hdet⟩ := h.inv.busy (h.mode_busy.mpr hb)
  exact ⟨cur, hcur, h.current.symm.trans hcur, hdet⟩

/-- An event of the nucleus is its action. -/
theorem step {e : Event} (h : Rep c d) (hs : Step c e c') :
    ∃ fuel d', d.next fuel (action c.toShared e) = some d' ∧ Rep c' d' := by
  obtain ⟨fuel, hs⟩ := hs
  let a : Kernel Fifos := ⟨c.toShared, d.q⟩
  have hsim : KSim c a := ⟨rfl, h.queues⟩
  have hd : a.core = d := h.core.symm
  obtain ⟨a', ha', hnext⟩ := KSim.step_tracks e hsim (hd ▸ h.inv) c' hs
  obtain ⟨c'', hc'', hsim'⟩ := KSim.step fuel e hsim a' ha'
  obtain rfl := Option.some.inj (hs.symm.trans hc'')
  rw [hd] at hnext
  refine ⟨fuel, a'.core, hnext, hsim'.2, ?_, ?_⟩
  · rw [hsim'.1]
    rfl
  · exact Core.next_inv h.inv hnext

/-- Where the lists take a step, so do the pointers. -/
theorem returns {fuel : Nat} {e : Event} {a : Kernel Fifos} (h : Rep c d)
    (hs : Pandos.step fuel (⟨c.toShared, d.q⟩ : Kernel Fifos) e = some a) :
    ∃ c', Step c e c' := by
  obtain ⟨c', hc', -⟩ := KSim.step fuel e ⟨rfl, h.queues⟩ a hs
  exact ⟨c', fuel, hc'⟩

end Rep

/-- The core after boot: the first process runs, everything else is free. -/
def bootCore (m : Memory) : Core where
  layout := m.layout
  q := ⟨(List.finRange maxProc).tail, false, [], fun _ => [], fun _ => 0⟩
  tree := .empty
  mem := fun a => if m.layout.IsDevice a then 0 else m.mem a
  processCount := 1
  softBlockedCount := 0
  current := some 0
  mode := .busy

/-- The state in which `initFirstProcess` calls `allocPcb`. -/
def Memory.ready (m : Memory) : Kernel Queues where
  toShared := ({ m.powerOn with intervalTimer := 100000 }.setMem m.layout.clockSemaphore 0).toShared
  q := { initASL (initPcbs m.powerOn.q) with readyQueue := mkEmptyProcQ }

theorem main_eq (m : Memory) (hw : Hw) :
    main m hw = (initFirstProcess m m.ready).bind (scheduler hw) := rfl

theorem main_rep (m : Memory) (hw : Hw) : ∃ c, main m hw = some c ∧ Rep c (bootCore m) := by
  let sh := m.ready.toShared
  let f₀ : Fifos := ⟨List.finRange maxProc, false, [], fun _ => [], fun _ => 0⟩
  let f₁ : Fifos := { f₀ with free := (List.finRange maxProc).tail }
  let a₁ : Kernel Fifos := { (⟨sh, f₁⟩ : Kernel Fifos) with
    tree := sh.tree.clear 0
    pSupportStruct := Function.update sh.pSupportStruct 0 0
    pTime := Function.update sh.pTime 0 0
    processCount := sh.processCount + 1 }
  have h₀ : KSim m.ready ⟨sh, f₀⟩ := ⟨rfl, QRep.init _ rfl⟩
  have hal : allocPcb (⟨sh, f₀⟩ : Kernel Fifos) = some (some 0, a₁) := rfl
  obtain ⟨⟨_, c₁⟩, hc₁, ⟨⟩, hsh, hq⟩ := h₀.allocPcb _ hal
  -- `p_semAdd` is cleared once more
  have hsem : c₁.q.pSemAdd = fun _ => 0 := hq.pSemAdd
  have hclear : { c₁.q with pSemAdd := Function.update c₁.q.pSemAdd 0 0 } = c₁.q := by
    rw [Function.update_eq_self_iff.mpr (congrFun hsem 0).symm]
  obtain ⟨sh₁, q₁⟩ := c₁
  obtain rfl : sh₁ = a₁.toShared := hsh
  let sh₂ : Shared := { (Kernel.setState a₁ 0 { a₁.pS 0 with
    gpr := Function.update (Function.update (a₁.pS 0).gpr 24 m.testPhase3) 26 m.ramTop
    pcEpc := m.testPhase3, status := firstStatus }).toShared with
    pTime := Function.update a₁.pTime 0 0
    pSupportStruct := Function.update a₁.pSupportStruct 0 0 }
  have hinit : initFirstProcess m m.ready = insertProcQReady (⟨sh₂, q₁⟩ : Kernel Queues) 0 := by
    have hstate : (⟨sh₂, { q₁ with pSemAdd := Function.update q₁.pSemAdd 0 0 }⟩ : Kernel Queues) =
        ⟨sh₂, q₁⟩ := congrArg (Kernel.mk sh₂) hclear
    rw [← hstate]
    simp only [initFirstProcess, hc₁, Option.bind_eq_bind, Option.bind_some]
    rfl
  have h₂ : KSim ⟨sh₂, q₁⟩ ⟨sh₂, f₁⟩ := ⟨rfl, hq⟩
  have hdet : f₁.Detached 0 := by decide
  have hins := insertProcQReady_core (a := ⟨sh₂, f₁⟩) hdet
  obtain ⟨c₃, hc₃, hsim₃⟩ := h₂.insertProcQReady 0 _ hins
  obtain ⟨a₄, ha₄, hcore⟩ := scheduler_core hw (⟨sh₂, f₁.insertReady 0⟩ : Kernel Fifos)
  obtain ⟨c₄, hc₄, hsim₄⟩ := hsim₃.scheduler hw _ ha₄
  have hboot : a₄.core = bootCore m := by
    have htree : Tree.clear .empty 0 = .empty := by
      simp only [Tree.clear, Tree.empty, Tree.setChild, Tree.setPrnt, Tree.setNextSib,
        Tree.setPrevSib, Tree.mk.injEq]
      refine ⟨?_, ?_, ?_, ?_⟩ <;> exact Function.update_eq_self_iff.mpr rfl
    have hmem : store (fun a => if m.layout.IsDevice a then 0 else m.mem a)
        m.layout.clockSemaphore 0 = fun a => if m.layout.IsDevice a then 0 else m.mem a :=
      store_eq_self (if_pos m.layout.isDevice_clockSemaphore)
    rw [hcore]
    show Core.mk m.layout f₁ (Tree.clear .empty 0)
      (store (fun a => if m.layout.IsDevice a then 0 else m.mem a)
        m.layout.clockSemaphore 0) 1 0 (some 0) .busy = _
    rw [htree, hmem]
    rfl
  refine ⟨c₄, ?_, ?_⟩
  · rw [main_eq, hinit]
    exact Option.bind_eq_some_iff.mpr ⟨c₃, hc₃, hc₄⟩
  · refine ⟨?_, ?_, ?_⟩
    · rw [← hboot]
      exact hsim₄.2
    · rw [← hboot, hsim₄.1]
      rfl
    · rw [← hboot, hcore]
      exact Core.dispatch_inv (hq.wf.insertReady hdet)

end Pandos
