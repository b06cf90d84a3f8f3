/-
# `Pandos.Clock` — the pseudo-clock

`clockSemaphore` is the last entry of `deviceSemaphores`, and
`initDevSemaphores` stores a `1` in all of them.  For the clock that `1` is a
unit that nobody has earned: until a tick sets the semaphore to `0`, or a
first `CLOCKWAIT` takes it, the value is one more than it should be
(`ClockInv.keeps`), and that `CLOCKWAIT` does not wait.

Once the unit is spent, the value is minus the number of processes blocked,
every `CLOCKWAIT` blocks its caller, and only a tick lets it go (`clock_law`).
-/
import Pandos.DeviceSemaphores

namespace Pandos

open Semaphore Simulation Kernel

/-! ## The clock is no device -/

theorem getDeviceNoFromLine_lt (bitmap : Word) :
    (getDeviceNoFromLine bitmap).toNat < devPerLine ∨ getDeviceNoFromLine bitmap = -1 := by
  unfold getDeviceNoFromLine
  split
  next i hi =>
    have hlt : i < 8 := List.mem_range.mp (List.mem_of_find?_eq_some hi)
    refine .inl ?_
    rw [BitVec.toNat_ofNat]
    simp only [devPerLine]
    omega
  · exact .inr rfl

/-- A completion is that of an interrupt. -/
theorem action_device {k : Shared} {e : Event} {s : Word} (h : action k e = .device s) :
    ∃ line i saved hw, e = .exception saved hw ∧ Interrupts line i saved hw ∧
      s = k.layout.semAdd i := by
  cases e with
  | store a v => cases h
  | refill saved badVAddr hw =>
      simp only [action] at h
      repeat' split at h
      all_goals cases h
  | exception saved hw =>
      simp only [action] at h
      split at h
      next hint =>
        have hof := interruptAction_of k saved hw
        rw [h] at hof
        cases hof with
        | @device line i hl hplt htick hi =>
            exact ⟨line, i, saved, hw, rfl, ⟨hint, hl, hi, hplt, htick⟩, rfl⟩
      · split at h
        · exact absurd h (syscallAction_ne_device _ _ _)
        · have hof := passupAction_of k
          rw [h] at hof
          cases hof

theorem getSemIndex_ne_clock {line n i : Word} {recv : Bool} (hline : line ≠ 2)
    (hn : n.toNat < devPerLine ∨ n = -1) (hi : getSemIndex line n recv = some i) :
    4 * i ≠ 4 * 48 := by
  unfold getSemIndex at hi
  rw [if_neg hline] at hi
  simp only [devPerLine] at hn
  split at hi
  next h =>
    obtain rfl := Option.some.inj hi
    rcases hn with hn | rfl
    · bv_omega
    · bv_omega
  · split at hi
    next h =>
      subst h
      rcases hn with hn | rfl
      all_goals
        cases recv with
        | true =>
            obtain rfl := Option.some.inj hi
            bv_omega
        | false =>
            obtain rfl := Option.some.inj hi
            bv_omega
    · exact nomatch hi

/-- Device interrupts are not for the clock. -/
theorem action_device_ne_clock {k : Shared} {e : Event} :
    action k e ≠ .device k.layout.clockSemaphore := by
  intro h
  obtain ⟨line, i, saved, hw, -, hint, hs⟩ := action_device h
  have hline : BitVec.ofNat 32 line ≠ 2 := by
    have hmem := pendingLine_mem hint.pending
    simp only [List.mem_cons, List.not_mem_nil, or_false] at hmem
    rcases hmem with rfl | rfl | rfl | rfl | rfl | rfl | rfl
    · exact absurd rfl hint.isDevice.1
    · exact absurd rfl hint.isDevice.2
    all_goals decide
  refine getSemIndex_ne_clock hline (getDeviceNoFromLine_lt _) hint.index ?_
  exact (add_left_cancel (a := k.layout.deviceSemaphores) hs).symm

/-! ## One event -/

/-- Processes leave the clock alone, but for `CLOCKWAIT` and for
`initDevSemaphores`, which comes before anybody waits. -/
structure Trans.Tends (x : Trans Queues) : Prop where
  passeren : x.action ≠ .passeren x.before.layout.clockSemaphore
  verhogen : x.action ≠ .verhogen x.before.layout.clockSemaphore
  ioWait : x.action ≠ .ioWait x.before.layout.clockSemaphore
  store : ∀ v, x.action = .store x.before.layout.clockSemaphore v →
    v = 1 ∧ x.before.blockedOn x.before.layout.clockSemaphore = []

/-- Whether the unit of `initDevSemaphores` is left after the action. -/
def Action.spare (clock : Word) (b : Bool) : Action → Bool
  | .store s _ => if s = clock then true else b
  | .clockWait s | .tick s => if s = clock then false else b
  | _ => b

theorem Action.spare_store {clock : Word} {v : Int} (b : Bool) :
    (Action.store clock v).spare clock b = true := if_pos rfl

theorem Action.spare_clockWait {clock : Word} (b : Bool) :
    (Action.clockWait clock).spare clock b = false := if_pos rfl

theorem Action.spare_tick {clock : Word} (b : Bool) :
    (Action.tick clock).spare clock b = false := if_pos rfl

theorem Action.spare_frame {clock : Word} {act : Action} (b : Bool)
    (h : ¬ Core.Names clock act) : act.spare clock b = b := by
  cases act with
  | store s v | clockWait s | tick s => exact if_neg h
  | _ => rfl

/-- Whether it is left after a run. -/
def spare (clock : Word) (tr : List (Trans Queues)) : Bool :=
  tr.foldl (fun b x => x.action.spare clock b) false

@[simp] theorem spare_concat (clock : Word) (tr : List (Trans Queues)) (x : Trans Queues) :
    spare clock (tr ++ [x]) = x.action.spare clock (spare clock tr) := by
  simp [spare]

/-- What is true of the clock all along; `b` says whether a unit is left. -/
structure ClockInv (b : Bool) (c : Core) : Prop where
  keeps : (c.sem c.layout.clockSemaphore).Keeps (if b then 1 else 0)
  alone : b = true → c.q.blocked c.layout.clockSemaphore = []

namespace ClockInv

variable {b : Bool} {c d : Core} {k k' : Kernel Queues} {e : Event} {fuel : Nat}

theorem mem_eq (h : ClockInv b c) : c.mem c.layout.clockSemaphore =
    (if b then 1 else 0) - (c.q.blocked c.layout.clockSemaphore).length := h.keeps

/-- The next `CLOCKWAIT` returns at once exactly if a unit is left. -/
theorem pos_iff (h : ClockInv b c) : 0 ≤ c.mem c.layout.clockSemaphore - 1 ↔ b = true := by
  have hval := h.mem_eq
  cases b with
  | false =>
      simp only [Bool.false_eq_true, if_false] at hval
      simp only [Bool.false_eq_true, iff_false, not_le]
      omega
  | true =>
      rw [h.alone rfl] at hval
      simp only [if_true, List.length_nil] at hval
      simp only [iff_true]
      omega

theorem step (h : ClockInv b c) (hc : Rep k c)
    (hnext : c.next fuel (action k.toShared e) = some d) (ht : (⟨k, e, k'⟩ : Trans Queues).Tends) :
    ClockInv ((action k.toShared e).spare c.layout.clockSemaphore b) d := by
  have hlayout := Core.next_layout hnext
  have hkl : k.layout = c.layout := hc.layout.symm
  have hdev : action k.toShared e ≠ .device c.layout.clockSemaphore := hkl ▸ action_device_ne_clock
  have hblocked := hc.blockedOn c.layout.clockSemaphore
  have hpos := h.pos_iff
  have hval := h.mem_eq
  have hst : ∀ v, action k.toShared e = .store c.layout.clockSemaphore v →
      v = 1 ∧ c.q.blocked c.layout.clockSemaphore = [] := by
    rw [← hc.blockedOn, ← hkl]
    exact ht.store
  -- what the clock looks like afterwards
  have hdone : ∀ {b' : Bool} {s : Sem PcbPtr}, d.sem c.layout.clockSemaphore = s →
      s.value = (if b' then 1 else 0) - s.queue.length → (b' = true → s.queue = []) →
        ClockInv b' d := by
    rintro b' s rfl hv hq
    rw [← hlayout] at hv hq
    exact ⟨hv, hq⟩
  by_cases hstore : ∃ v, action k.toShared e = .store c.layout.clockSemaphore v
  · obtain ⟨v, hact⟩ := hstore
    obtain ⟨rfl, hb⟩ := hst v hact
    rw [hact] at hnext ⊢
    obtain ⟨-, hout⟩ := Core.next_outcome hnext
    rw [Action.spare_store]
    cases hout with
    | store => exact hdone (s := ⟨1, []⟩) (by simp [Core.sem, hb]) (by simp) fun _ => rfl
  have hleaves : Core.Leaves c.layout.clockSemaphore (action k.toShared e) :=
    ⟨hkl ▸ ht.passeren, hkl ▸ ht.verhogen, fun v hv => hstore ⟨v, hv⟩⟩
  have hio : action k.toShared e ≠ .ioWait c.layout.clockSemaphore := hkl ▸ ht.ioWait
  have hconc := Core.next_concerns hc.inv hnext c.layout.isDevice_clockSemaphore hleaves
  generalize action k.toShared e = act at *
  cases hconc with
  | wait _ => exact absurd rfl hio
  | clock _ hle =>
      obtain rfl := hpos.mp hle
      rw [Action.spare_clockWait]
      refine hdone (s := ⟨c.mem c.layout.clockSemaphore - 1,
        c.q.blocked c.layout.clockSemaphore⟩) ?_ ?_ (by rintro ⟨⟩)
      · simp [Core.sem, Core.run, Core.addMem]
        rfl
      · simp only [hval]
        simp
  | @clockBlocks cur _ hlt =>
      have hb : b = false := by
        rw [← Bool.not_eq_true, ← hpos]
        exact not_le.mpr hlt
      have hkeeps : Sem.Keeps _ _ := h.keeps.io (.wait cur)
      rw [hb] at hkeeps
      rw [Action.spare_clockWait]
      exact hdone (Core.wait_sem c _ cur) hkeeps (by rintro ⟨⟩)
  | tick =>
      rw [Action.spare_tick]
      exact hdone (Core.tick_sem hc.inv.wf) (by simp) (by rintro ⟨⟩)
  | device => exact absurd rfl hdev
  | @terminate _ vs _ hsem =>
      have hkeeps : Sem.Keeps _ _ := h.keeps.io (.drop (· ∈ vs))
      refine hdone hsem hkeeps fun hb => ?_
      simp [Sem.step, Core.sem, h.alone hb]
  | other hn _ hsem =>
      rw [Action.spare_frame b hn]
      exact hdone hsem h.keeps h.alone

end ClockInv

/-! ## Those who wait -/

namespace Core

variable {c : Core} {s : Word}

/-- The processes blocked on `s` follow the ready ones. -/
theorem drain_ready (hwf : c.q.Wf) (s : Word) :
    (c.drain s).q.ready = c.q.ready ++ c.q.blocked s := by
  obtain ⟨h, -, hnil⟩ := drain_induct
    (P := fun d => d.q.ready ++ d.q.blocked s = c.q.ready ++ c.q.blocked s)
    (fun d p l hd _ hs => by
      have hready := wake_unblock_ready hs
      have hblocked := congrFun (wake_unblock_blocked hs) s
      rw [Function.update_self] at hblocked
      rw [hs] at hd
      show ((d.unblock s).wake p).q.ready ++ ((d.unblock s).wake p).q.blocked s = _
      rw [hready, hblocked, ← hd, List.append_assoc]
      rfl)
    _ c rfl hwf rfl
  rw [hnil, List.append_nil] at h
  exact h

end Core

namespace Rep

variable {k k' : Kernel Queues} {c d : Core} {e : Event} {fuel : Nat} {p : PcbPtr}

/-- `CLOCKWAIT` blocks its caller exactly if the unit is spent. -/
theorem clockWait_blocks {b : Bool} (hc : Rep k c) (hd : Rep k' d)
    (hnext : c.next fuel (.clockWait c.layout.clockSemaphore) = some d) (h : ClockInv b c)
    (hp : k.currentProcess = some p) : p ∈ k'.blockedOn k.layout.clockSemaphore ↔ b = false := by
  obtain ⟨hm, hout⟩ := Core.next_outcome hnext
  have hcur : c.current = some p := hc.current.trans hp
  have hnot : p ∉ c.q.blocked c.layout.clockSemaphore :=
    hc.inv.wf.not_blocked (hc.inv.detached hm hcur).2.2 _
  rw [hd.blockedOn, ← hc.layout, ← Bool.not_eq_true, ← h.pos_iff]
  cases hout with
  | clock _ _ hle => exact iff_of_false hnot (not_not.mpr hle)
  | @clockBlocks cur _ hcur' _ hlt =>
      obtain rfl : p = cur := Option.some.inj (hcur.symm.trans hcur')
      have hq := congrArg Sem.queue (Core.wait_sem c c.layout.clockSemaphore p)
      simp only [Core.sem, Sem.io] at hq
      rw [hq]
      exact iff_of_true (by simp) (not_le.mpr hlt)

/-- Who waits for the clock goes on waiting, but for a tick. -/
theorem clock_stays (hc : Rep k c) (hd : Rep k' d)
    (hnext : c.next fuel (action k.toShared e) = some d) (ht : (⟨k, e, k'⟩ : Trans Queues).Tends)
    (htick : action k.toShared e ≠ .tick c.layout.clockSemaphore) (hlive : k'.Live p)
    (hp : p ∈ c.q.blocked c.layout.clockSemaphore) : p ∈ d.q.blocked c.layout.clockSemaphore := by
  have hkl : k.layout = c.layout := hc.layout.symm
  have hleaves : Core.Leaves c.layout.clockSemaphore (action k.toShared e) := by
    refine ⟨hkl ▸ ht.passeren, hkl ▸ ht.verhogen, fun v hv => ?_⟩
    have hnobody := (ht.store v (hkl ▸ hv)).2
    rw [hc.blockedOn, hkl] at hnobody
    rw [hnobody] at hp
    exact nomatch hp
  have hio : action k.toShared e ≠ .ioWait c.layout.clockSemaphore := hkl ▸ ht.ioWait
  have hdev : action k.toShared e ≠ .device c.layout.clockSemaphore := hkl ▸ action_device_ne_clock
  have hconc := Core.next_concerns hc.inv hnext c.layout.isDevice_clockSemaphore hleaves
  generalize action k.toShared e = act at *
  cases hconc with
  | wait _ => exact absurd rfl hio
  | clock _ _ => exact hp
  | @clockBlocks cur _ _ =>
      have hq := congrArg Sem.queue (Core.wait_sem c c.layout.clockSemaphore cur)
      simp only [Core.sem, Sem.io] at hq
      rw [hq]
      exact List.mem_append_left _ hp
  | tick => exact absurd rfl htick
  | device => exact absurd rfl hdev
  | terminate hdead hsem =>
      have hq : d.q.blocked c.layout.clockSemaphore = _ := congrArg Sem.queue hsem
      rw [hq]
      have hnot : p ∉ _ := fun hmem => hdead p hmem ((hd.live_iff p).mp hlive)
      simp [Sem.step, Core.sem, hp, hnot]
  | other _ _ hsem =>
      have hq : d.q.blocked c.layout.clockSemaphore = _ := congrArg Sem.queue hsem
      rw [hq]
      exact hp

/-- A tick lets everybody go, in the order of arrival. -/
theorem clock_tick (hc : Rep k c) (hd : Rep k' d)
    (hnext : c.next fuel (.tick c.layout.clockSemaphore) = some d) :
    k'.mem k.layout.clockSemaphore = 0 ∧ k'.blockedOn k.layout.clockSemaphore = [] ∧
      k'.lineup = k.lineup ++ k.blockedOn k.layout.clockSemaphore := by
  obtain ⟨hm, hout⟩ := Core.next_outcome hnext
  cases hout with
  | tick _ =>
      have hsem := Core.tick_sem (s := c.layout.clockSemaphore) hc.inv.wf
      refine ⟨?_, ?_, ?_⟩
      · rw [← hd.mem, ← hc.layout]
        exact congrArg Sem.value hsem
      · rw [hd.blockedOn, ← hc.layout]
        exact congrArg Sem.queue hsem
      · rw [hd.lineup, Core.back_lineup, hc.lineup, hc.inv.lineup_eq hm, List.append_assoc,
          hc.blockedOn, ← hc.layout, ← Core.drain_ready hc.inv.wf]
        exact congrArg (·.toList ++ _) (Core.drain_current hc.inv.wf _).1

end Rep

/-! ## Runs -/

/-- A run from `main`, in which processes tend the clock. -/
structure ClockRun (k₀ : Kernel Queues) (tr : List (Trans Queues)) (k : Kernel Queues) : Prop where
  boot : Boot k₀
  run : Run k₀ tr k
  tends : ∀ x ∈ tr, x.Tends

theorem ClockRun.inv {k₀ k : Kernel Queues} {tr : List (Trans Queues)} (h : ClockRun k₀ tr k) :
    ∃ c, Rep k c ∧ c.layout = k₀.layout ∧ ClockInv (spare k₀.layout.clockSemaphore tr) c := by
  refine h.run.invariant (P := fun tr c => c.layout = k₀.layout ∧
    ClockInv (spare k₀.layout.clockSemaphore tr) c) h.tends ?_ ?_
  · obtain ⟨m, hrep⟩ := h.boot.rep
    refine ⟨_, hrep, hrep.layout, ?_, by rintro ⟨⟩⟩
    have hclock : m.layout.IsDevice m.layout.clockSemaphore := m.layout.isDevice_clockSemaphore
    simp [Sem.Keeps, Core.sem, bootCore, hclock, spare]
  · rintro tr k e k' c d fuel hc hd hnext ht ⟨hlayout, hinv⟩
    refine ⟨(Core.next_layout hnext).trans hlayout, ?_⟩
    rw [spare_concat, ← hlayout]
    rw [← hlayout] at hinv
    exact hinv.step hc hnext ht

/-- Who is blocked on the clock stays so until a tick, or its end. -/
theorem Run.clock_stays {k₀ k : Kernel Queues} {tr : List (Trans Queues)} {p : PcbPtr}
    (h₀ : Reachable k₀) (h : Run k₀ tr k) (hp : p ∈ k₀.blockedOn k₀.layout.clockSemaphore)
    (hx : ∀ x ∈ tr, x.Tends ∧ x.action ≠ .tick k₀.layout.clockSemaphore ∧ x.after.Live p) :
    p ∈ k.blockedOn k₀.layout.clockSemaphore := by
  obtain ⟨c₀, hc₀⟩ := h₀.rep
  obtain ⟨c, hc, -, hmem⟩ := h.invariant (P := fun _ c => c.layout = k₀.layout ∧
      p ∈ c.q.blocked k₀.layout.clockSemaphore) hx
    ⟨c₀, hc₀, hc₀.layout, hc₀.blockedOn _ ▸ hp⟩ fun hc hd hnext hx hP => by
      obtain ⟨ht, htick, hlive⟩ := hx
      obtain ⟨hlayout, hmem⟩ := hP
      refine ⟨(Core.next_layout hnext).trans hlayout, ?_⟩
      rw [← hlayout] at hmem htick ⊢
      exact hc.clock_stays hd hnext ht htick hlive hmem
  rw [hc.blockedOn]
  exact hmem

/-- The clock semaphore is minus the number of processes blocked on it, and
`CLOCKWAIT` blocks its caller, exactly if the unit of `initDevSemaphores` is
spent.  Who is blocked stays so until a tick, and the tick lets all go. -/
theorem clock_law {k₀ k : Kernel Queues} {tr : List (Trans Queues)} (h : ClockRun k₀ tr k) :
    let clock := k.layout.clockSemaphore
    (k.mem clock = -(k.blockedOn clock).length ↔ spare clock tr = false) ∧
      (∀ e k' p, Step k e k' → action k.toShared e = .clockWait clock →
        k.currentProcess = some p → (p ∈ k'.blockedOn clock ↔ spare clock tr = false)) ∧
      (∀ p tr' k', p ∈ k.blockedOn clock → Run k tr' k' →
        (∀ x ∈ tr', x.Tends ∧ x.action ≠ .tick clock ∧ x.after.Live p) →
          p ∈ k'.blockedOn clock) ∧
      ∀ e k', Step k e k' → action k.toShared e = .tick clock →
        k'.mem clock = 0 ∧ k'.blockedOn clock = [] ∧ k'.lineup = k.lineup ++ k.blockedOn clock := by
  intro clock
  obtain ⟨c, hc, hlayout, hinv⟩ := h.inv
  have hclock : c.layout.clockSemaphore = clock := congrArg Layout.clockSemaphore hc.layout
  have hclock₀ : k₀.layout.clockSemaphore = clock :=
    (congrArg Layout.clockSemaphore hlayout).symm.trans hclock
  rw [hclock₀] at hinv
  refine ⟨?_, fun e k' p hs hact hp => ?_, fun p tr' k' hp hrun hx => ?_, fun e k' hs hact => ?_⟩
  · have hval := hinv.mem_eq
    rw [hclock, ← hc.blockedOn, hc.mem] at hval
    rw [hval]
    cases spare clock tr <;> simp
  · obtain ⟨fuel, d, hnext, hd⟩ := hc.step hs
    rw [hact, ← hclock] at hnext
    exact hc.clockWait_blocks hd hnext hinv hp
  · exact hrun.clock_stays (Reachable.run ⟨k₀, [], h.boot, .nil⟩ h.run) hp hx
  · obtain ⟨fuel, d, hnext, hd⟩ := hc.step hs
    rw [hact, ← hclock] at hnext
    exact hc.clock_tick hd hnext

/-- What the action stores at `s`. -/
def Action.stored (s : Word) : Action → Option Int
  | .store a v => if a = s then some v else none
  | _ => none

theorem Action.mem_stored {s : Word} {act : Action} {v : Int} :
    v ∈ act.stored s ↔ act = .store s v := by
  cases act with
  | store a w => simp [stored]
  | _ => simp [stored]

instance (x : Trans Queues) : Decidable x.Tends :=
  decidable_of_iff (x.action ≠ .passeren x.before.layout.clockSemaphore ∧
      x.action ≠ .verhogen x.before.layout.clockSemaphore ∧
      x.action ≠ .ioWait x.before.layout.clockSemaphore ∧
      ∀ v ∈ x.action.stored x.before.layout.clockSemaphore,
        v = 1 ∧ x.before.blockedOn x.before.layout.clockSemaphore = [])
    ⟨fun ⟨h1, h2, h3, h4⟩ => ⟨h1, h2, h3, fun v hv => h4 v (Action.mem_stored.mpr hv)⟩,
      fun ⟨h1, h2, h3, h4⟩ => ⟨h1, h2, h3, fun v hv => h4 v (Action.mem_stored.mp hv)⟩⟩

/-- The last step of `initDevSemaphores`, and two `CLOCKWAIT`s. -/
def clockScript : List Event :=
  [.store Memory.zero.layout.clockSemaphore 1, callCreate, callClock, callClock]

/-- The first of them takes the unit, the second waits. -/
theorem clock_law_script : ∃ k₀ tr k, ClockRun k₀ tr k ∧
    spare k.layout.clockSemaphore tr = false ∧ k.blockedOn k.layout.clockSemaphore = [0] ∧
      k.mem k.layout.clockSemaphore = -1 := by
  have hany : (Script.eval walkFuel .zero .zero clockScript).any (fun x =>
      x.trace.all (fun y => y.Tends) ∧ spare x.final.layout.clockSemaphore x.trace = false ∧
        x.final.blockedOn x.final.layout.clockSemaphore = [0]) = true := by
    decide +kernel
  obtain ⟨x, hx, h⟩ := Script.exists_of_any hany
  obtain ⟨htends, hspare, hblocked⟩ := of_decide_eq_true h
  obtain ⟨hboot, hrun, -⟩ := Script.run hx
  have hclock : ClockRun x.start x.trace x.final :=
    ⟨hboot, hrun, fun y hy => of_decide_eq_true (List.all_eq_true.mp htends y hy)⟩
  have hvalue := (clock_law hclock).1.mpr hspare
  rw [hblocked] at hvalue
  exact ⟨x.start, x.trace, x.final, hclock, hspare, hblocked, hvalue⟩

/-- After `initDevSemaphores` the value is `1` with nobody blocked, and the
first `CLOCKWAIT` returns to its caller. -/
theorem unearned_script : ∃ k₀ tr k, ClockRun k₀ tr k ∧
    tr.map Trans.event = [.store k.layout.clockSemaphore 1, callClock] ∧
      (tr[0]?.any fun x => x.after.mem k.layout.clockSemaphore = 1 ∧
        x.after.blockedOn k.layout.clockSemaphore = []) ∧
      k.blockedOn k.layout.clockSemaphore = [] ∧ k.running = some 0 := by
  have hany : (Script.eval walkFuel .zero .zero
      [.store Memory.zero.layout.clockSemaphore 1, callClock]).any (fun x =>
        x.trace.all (fun y => y.Tends) ∧
          x.final.layout.clockSemaphore = Memory.zero.layout.clockSemaphore ∧
          (x.trace[0]?.any fun y => y.after.mem x.final.layout.clockSemaphore = 1 ∧
            y.after.blockedOn x.final.layout.clockSemaphore = []) ∧
          x.final.blockedOn x.final.layout.clockSemaphore = [] ∧ x.final.running = some 0) =
      true := by
    decide +kernel
  obtain ⟨x, hx, h⟩ := Script.exists_of_any hany
  obtain ⟨htends, hlayout, h⟩ := of_decide_eq_true h
  obtain ⟨hboot, hrun, hevents⟩ := Script.run hx
  rw [← hlayout] at hevents
  exact ⟨x.start, x.trace, x.final,
    ⟨hboot, hrun, fun y hy => of_decide_eq_true (List.all_eq_true.mp htends y hy)⟩, hevents, h⟩

end Pandos
