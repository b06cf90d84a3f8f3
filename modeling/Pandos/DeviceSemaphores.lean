/-
# `Pandos.DeviceSemaphores` — the semaphores of the sub-devices

`wait_For_IO` blocks its caller whatever the semaphore's value is, a
completion tests the value before it looks at the queue, and a termination
gives back one unit for each process it takes out of the queue.  If the
semaphore starts at `n`, the three agree on

    value = n − number of processes blocked

and for `n ≤ 1` the test of the completion is then a test of the queue
(`Core.next_io`).  This holds in every run (`device_law`), and each completion
answers the process that has been blocked longest.
-/
import Pandos.Devices

namespace Pandos

open Semaphore Simulation Kernel

namespace Core

variable {c c' : Core} {s : Word} {act : Action} {fuel : Nat}

/-! ### A processor that waits -/

/-- The processor waits only when nobody is ready. -/
def Parked (c : Core) : Prop := c.mode = .waiting → c.q.ready = []

theorem dispatch_parked (c : Core) : Parked c.dispatch := by
  unfold dispatch
  split
  · exact nofun
  next hready =>
    split
    · exact nofun
    · split
      · exact fun _ => hready
      · exact nofun

theorem back_parked (c : Core) : Parked c.back := by
  unfold back
  split
  · exact nofun
  · exact dispatch_parked c

/-- Where nobody is ready, an interrupt of the processor finds nobody. -/
theorem back_ready (h : c.current = none → c.q.ready = []) : c.back.q.ready = c.q.ready := by
  unfold back
  split
  · rfl
  next hnone =>
    rw [dispatch_ready, h hnone]
    rfl

theorem next_parked (h : Parked c) (hnext : c.next fuel act = some c') : Parked c' := by
  obtain ⟨-, hout⟩ := next_outcome hnext
  cases hout with
  | full _ _ | created _ _ _ | resume _ | down _ _ _ | up _ _ _ | upWakes _ _ _ | clock _ _ _
  | preemptNobody _ | panic => exact nofun
  | terminated _ _ | downBlocks _ _ _ | ioWait _ _ | clockBlocks _ _ _ | preempt _ =>
      exact dispatch_parked _
  | tick _ | device _ | spurious => exact back_parked _
  | store => exact h

end Core

theorem Reachable.parked {k : Kernel Queues} (h : Reachable k) : ∃ c, Rep k c ∧ c.Parked :=
  h.invariant (fun _ => nofun) fun _ hnext hpark => Core.next_parked hpark hnext

/-! ## Runs -/

/-- A sub-device in a run that starts with `n` units in its semaphore and
nobody blocked on it, and in which processes leave the semaphore alone. -/
structure DeviceRun (i : SubDevice) (n : Int) (k₀ : Kernel Queues) (tr : List (Trans Queues))
    (k : Kernel Queues) : Prop where
  reachable : Reachable k₀
  run : Run k₀ tr k
  units : n = 0 ∨ n = 1
  initial : k₀.mem (k₀.layout.subSem i) = n
  nobody : k₀.blockedOn (k₀.layout.subSem i) = []
  calls : ∀ x ∈ tr, Core.Leaves (k₀.layout.subSem i) x.action

/-- What is true of the semaphore of a sub-device all along. -/
structure DeviceInv (i : SubDevice) (n : Int) (k₀ : Kernel Queues) (tr : List (Trans Queues))
    (c : Core) : Prop where
  layout : c.layout = k₀.layout
  keeps : (c.sem (k₀.layout.subSem i)).Keeps n
  ordered : Ordered (blockedFor (k₀.layout.subSem i) tr) (c.q.blocked (k₀.layout.subSem i))
  parked : c.Parked

theorem DeviceInv.step {i : SubDevice} {n : Int} {k₀ k k' : Kernel Queues}
    {tr : List (Trans Queues)} {c d : Core} {e : Event} {fuel : Nat}
    (h : DeviceInv i n k₀ tr c) (hc : Rep k c)
    (hnext : c.next fuel (action k.toShared e) = some d) (hn : n ≤ 1)
    (hcall : Core.Leaves (k₀.layout.subSem i) (action k.toShared e)) :
    DeviceInv i n k₀ (tr ++ [⟨k, e, k'⟩]) d := by
  have hlayout : k.layout = k₀.layout := hc.layout.symm.trans h.layout
  have hne : k₀.layout.subSem i ≠ k.layout.clockSemaphore :=
    hlayout ▸ k₀.layout.subSem_ne_clock i
  obtain ⟨o, ho, hsem⟩ := Core.next_io hc.inv hnext (h.layout ▸ k₀.layout.isDevice_subSem i)
    hcall (fun e => hne (action_clockWait e)) (fun e => hne (action_tick e)) (h.keeps.within hn)
  have hfresh := ho.fresh hc.inv (Core.next_outcome hnext).1
  have hqueue : d.q.blocked (k₀.layout.subSem i) = _ := congrArg Sem.queue hsem
  constructor
  case layout => exact (Core.next_layout hnext).trans h.layout
  case keeps =>
    rw [hsem]
    exact h.keeps.io o
  case ordered =>
    rw [blockedFor_concat, hc.blockedOn, hqueue]
    exact Ordered.io (s := c.sem (k₀.layout.subSem i)) h.ordered hfresh
  case parked => exact Core.next_parked h.parked hnext

theorem DeviceRun.inv {i : SubDevice} {n : Int} {k₀ k : Kernel Queues} {tr : List (Trans Queues)}
    (h : DeviceRun i n k₀ tr k) : ∃ c, Rep k c ∧ DeviceInv i n k₀ tr c := by
  have hn : n ≤ 1 := by
    have := h.units
    omega
  refine h.run.invariant h.calls ?_ fun hc _ hnext hcall hinv => hinv.step hc hnext hn hcall
  obtain ⟨c, hc, hpark⟩ := h.reachable.parked
  have hb : c.q.blocked (k₀.layout.subSem i) = [] := (hc.blockedOn _).symm.trans h.nobody
  refine ⟨c, hc, hc.layout, ?_, ?_, hpark⟩
  · rw [Sem.Keeps, Core.sem, hb, hc.mem, h.initial]
    simp
  · rw [hb]
    exact .nil

/-- Of those blocked on `s`, `p` has waited longest; it stands behind the
ready processes now, with the status, and no other queue or semaphore changes. -/
structure AnswersLongest (s status : Word) (tr : List (Trans Queues)) (k k' : Kernel Queues)
    (p : PcbPtr) : Prop where
  mem : p ∈ k.blockedOn s
  longest : ∀ x ∈ k.blockedOn s, x ≠ p → blockedFor s tr x < blockedFor s tr p
  leaves : k'.blockedOn s = (k.blockedOn s).erase p
  lineup : k'.lineup = k.lineup ++ [p]
  state : k'.pS p = (k.pS p).setV0 status
  others : ∀ s', s' ≠ s → k'.blockedOn s' = k.blockedOn s' ∧ k'.mem s' = k.mem s'
  free : k'.q.freeList = k.q.freeList

/-- No semaphore and no queue has changed. -/
structure LeavesAll (k k' : Kernel Queues) : Prop where
  blockedOn : ∀ s, k'.blockedOn s = k.blockedOn s
  mem : k'.mem = k.mem
  ready : k'.readyList = k.readyList
  free : k'.q.freeList = k.q.freeList

/-- The value of a sub-device's semaphore is its initial value less the number
of processes blocked; a completion answers the one that has been blocked
longest, and changes nothing if there is none. -/
theorem device_law {i : SubDevice} {n : Int} {k₀ k : Kernel Queues} {tr : List (Trans Queues)}
    (h : DeviceRun i n k₀ tr k) :
    k.mem (k.layout.subSem i) = n - (k.blockedOn (k.layout.subSem i)).length ∧
      ∀ line saved hw k', Interrupts line (BitVec.ofNat 32 i) saved hw →
        Step k (.exception saved hw) k' →
          (k.blockedOn (k.layout.subSem i) ≠ [] → ∃ p,
            AnswersLongest (k.layout.subSem i) (hw.answer (BitVec.ofNat 32 line)) tr k k' p) ∧
          (k.blockedOn (k.layout.subSem i) = [] → LeavesAll k k') := by
  obtain ⟨c, hc, hinv⟩ := h.inv
  have hlayout : k₀.layout = k.layout := hinv.layout.symm.trans hc.layout
  obtain ⟨-, hkeeps, hordered, hparked⟩ := hinv
  rw [hlayout] at hkeeps hordered
  have hvalue : k.mem (k.layout.subSem i) = n - (k.blockedOn (k.layout.subSem i)).length := by
    rw [hc.blockedOn, ← hc.mem]
    exact hkeeps
  refine ⟨hvalue, fun line saved hw k' hint hs => ?_⟩
  obtain ⟨hdone, -⟩ := hc.step_completed hint hs
  have hdone : Completed (k.layout.subSem i) (hw.answer (BitVec.ofNat 32 line)) k k' := hdone
  constructor
  · intro hb
    obtain ⟨p, l, hpl⟩ := List.exists_cons_of_ne_nil hb
    have hle : k.mem (k.layout.subSem i) ≤ 0 := by
      have hunits := h.units
      rw [hpl, List.length_cons] at hvalue
      omega
    obtain ⟨hqueue, -, hline, hstate⟩ := hdone.wakes hle p l hpl
    rw [← hc.blockedOn, hpl] at hordered
    refine ⟨p, ?_, ?_, ?_, hline, hstate, hdone.others, hdone.free⟩
    · rw [hpl]
      simp
    · intro x hx hxp
      rw [hpl] at hx
      exact hordered.head x ((List.mem_cons.mp hx).resolve_left hxp)
    · rw [hqueue, hpl]
      simp
  · intro hb
    obtain ⟨hqueue, hmem, hline⟩ := hdone.nobody (.inr hb)
    constructor
    case blockedOn =>
      intro s
      by_cases hsi : s = k.layout.subSem i
      · rw [hsi, hqueue]
      · exact (hdone.others s hsi).1
    case mem =>
      funext s
      by_cases hsi : s = k.layout.subSem i
      · rw [hsi, hmem]
      · exact (hdone.others s hsi).2
    case ready =>
      obtain ⟨fuel, d, hnext, hd⟩ := hc.step hs
      rw [hint.action] at hnext
      obtain ⟨hm, hout⟩ := Core.next_outcome hnext
      rw [hd.readyList, hc.readyList]
      cases hout with
      | device _ =>
          have hnobody : c.q.blocked (k.layout.semAdd (BitVec.ofNat 32 i)) = [] :=
            (hc.blockedOn _).symm.trans hb
          rw [Core.release_of_nobody hnobody]
          refine Core.back_ready (c := c.addSoft (-1)) fun hnone => hparked (hm.resolve_left ?_)
          intro hbusy
          obtain ⟨p, hp, -⟩ := hc.inv.busy hbusy
          exact absurd (hp.symm.trans hnone) nofun
    case free => exact hdone.free

/-- Once `initDevSemaphores` has stored a `1`, the first process waits for the
disk, and its child runs. -/
theorem device_law_script : ∃ k₀ tr k, DeviceRun 0 1 k₀ tr k ∧
    k.blockedOn (k.layout.subSem 0) = [0] ∧ k.mem (k.layout.subSem 0) = 0 ∧
      ∃ k' p, Step k (deviceDone 3 0) k' ∧ AnswersLongest (k.layout.subSem 0) ready tr k k' p := by
  have hany : (Script.eval walkFuel .zero .zero
      [.store (Memory.zero.layout.subSem 0) 1]).any (fun x =>
        (runScript walkFuel x.final [callCreate, callWait 3 0]).any fun y =>
          x.final.mem (x.final.layout.subSem 0) = 1 ∧
            x.final.blockedOn (x.final.layout.subSem 0) = [] ∧
            y.1.all (fun z => Core.Leaves (x.final.layout.subSem 0) z.action) ∧
            y.2.blockedOn (y.2.layout.subSem 0) = [0] ∧ y.2.cpu.busy) = true := by
    decide +kernel
  obtain ⟨x, hx, hany⟩ := Script.exists_of_any hany
  obtain ⟨hboot, hrun, -⟩ := Script.run hx
  obtain ⟨⟨tr, k⟩, hy, h⟩ := (Option.any_eq_true _ _).mp hany
  obtain ⟨hinit, hnobody, hcalls, hblocked, hbusy⟩ := of_decide_eq_true h
  have hdevice : DeviceRun 0 1 x.final tr k :=
    ⟨⟨x.start, x.trace, hboot, hrun⟩, runScript_run .nil hy, .inr rfl, hinit, hnobody,
      fun z hz => of_decide_eq_true (List.all_eq_true.mp hcalls z hz)⟩
  obtain ⟨hvalue, hdone⟩ := device_law hdevice
  rw [hblocked] at hvalue
  obtain ⟨c, hc, -⟩ := hdevice.inv
  have hint : Interrupts diskInt 0 { zeroState with cause := causeIp 3 }
      { Hw.zero with bitmap := fun _ => 1 <<< 0, devReg := fun _ _ => ⟨ready, 0, ready, 0⟩ } :=
    ⟨by decide, by decide, by decide, by decide, by decide⟩
  obtain ⟨k', hs⟩ := hc.exists_step hint (by decide) (by rw [takesException, hbusy]; rfl)
  obtain ⟨p, hp⟩ := (hdone diskInt _ _ k' hint hs).1 (by rw [hblocked]; exact List.cons_ne_nil 0 [])
  exact ⟨x.final, tr, k, hdevice, hblocked, hvalue, k', p, hs, hp⟩

end Pandos
