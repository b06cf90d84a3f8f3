/-
# `Pandos.SoftBlocked` — who waits for a device

`softBlockedCount` is kept apart from the queues it is about.  Five places
change it, each with a condition of its own, and the scheduler reads it only
when the ready queue is empty: with no process the machine halts, with a
positive count it waits, and otherwise it stops for a deadlock.

The main result is `softBlockedCount_of_awaited`: the count is the number of
processes blocked on an entry of `deviceSemaphores`, the clock's among them,
and at each step that finds no process ready the machine halts, waits or
stops as it should.  It holds for every run from `main` whose steps all meet

    Awaited       an interrupt of a device finds a process blocked on its
                  semaphore, and nobody who dies in a termination is blocked
                  on a device
    BackLinked    the back link of the process that ends is right, without
                  which the dead and `processCount` part
    Plain         PASSEREN and VERHOGEN are not for deviceSemaphores, and a
                  store there leaves no unit to those who are blocked

`Awaited` is what the code does not see to: `releaseSemAndUpdateStatus` takes
one off whether or not somebody waits (`not_decided_unawaitedScript`), and
`terminate_Process_rec` never does.  `Plain` is about the programs that run:
it allows `initDevSemaphores`, which stores a `1` in every entry before
anybody waits, and nothing is said of a program that uses the semaphores of
devices as its own.

The invariant behind it is `Core.Within`: for each device the value of the
semaphore and the number of processes blocked come to one at most
(`Core.next_within`).  So where somebody waits the value is not positive, and
the interrupt, which tests the value first, finds him (`Core.next_counted`).
It is no equation: the clock's value is one less after a `CLOCKWAIT` that
returns at once, and a store may put anything lower.
-/
import Pandos.Ownership
import Pandos.Semaphores

namespace Pandos

open Semaphore Simulation

/-- How many points a function sends into `S`, after one update. -/
theorem card_filter_update {α β : Type} [Fintype α] [DecidableEq α] (f : α → β) (S : β → Prop)
    [DecidablePred S] (a : α) (b : β) :
    (Finset.univ.filter fun x => S (Function.update f a b x)).card + (if S (f a) then 1 else 0) =
      (Finset.univ.filter fun x => S (f x)).card + if S b then 1 else 0 := by
  have hsplit : ∀ g : α → β, (Finset.univ.filter fun x => S (g x)).card =
      ((Finset.univ.erase a).filter fun x => S (g x)).card + if S (g a) then 1 else 0 := by
    intro g
    rw [← Finset.insert_erase (Finset.mem_univ a), Finset.filter_insert]
    split
    · rw [Finset.card_insert_of_notMem (by simp), Finset.erase_insert (by simp)]
    · rw [Finset.erase_insert (by simp), add_zero]
  have hrest : ((Finset.univ.erase a).filter fun x => S (Function.update f a b x)) =
      (Finset.univ.erase a).filter fun x => S (f x) := by
    refine Finset.filter_congr fun x hx => ?_
    rw [Function.update_of_ne (Finset.ne_of_mem_erase hx)]
  rw [hsplit f, hsplit (Function.update f a b), hrest, Function.update_self]
  omega

theorem Layout.not_isDevice_zero (l : Layout) : ¬ l.IsDevice 0 := fun h =>
  (Core.accessible_ne h.accessible).1 rfl

namespace Core

variable {c c' d : Core} {p x : PcbPtr} {s : Word}

theorem kill_pSemAdd (c : Core) (p : PcbPtr) :
    (c.kill p).q.pSemAdd = Function.update c.q.pSemAdd p 0 := by
  unfold kill
  split
  · rfl
  next hp =>
    rw [← not_not.mp hp, Function.update_eq_self]
    rfl

/-- An interrupt that finds a process blocked on `s`. -/
theorem release_sem_self (hv : (c.sem s).value ≤ 0) (hb : c.q.blocked s ≠ []) :
    (c.release s).sem s = (c.sem s).step .up := by
  obtain ⟨p, l, hpl⟩ := List.exists_cons_of_ne_nil hb
  rw [release_of_blocked hv hpl]
  have hwake := wake_unblock_sem_self (c := c.addSoft (-1)) hpl
  have hmem := congrArg Sem.value hwake
  have hqueue := congrArg Sem.queue hwake
  simp only [sem] at hmem hqueue
  simp only [sem, addMem, store_self, hmem, hqueue, Sem.step, hpl, List.tail_cons]
  rfl

/-- An interrupt that finds nobody. -/
theorem release_sem_nobody (hb : c.q.blocked s = []) : (c.release s).sem s = c.sem s := by
  rw [release_of_nobody hb]
  rfl

/-- `releaseSemAndUpdateStatus` tests the value first; with no unit for those
who wait, this is a test of the queue. -/
theorem release_sem_io (h : (c.sem s).Within 1) : (c.release s).sem s = (c.sem s).io .answer := by
  cases hb : c.q.blocked s with
  | nil =>
      rw [release_sem_nobody hb, Sem.io]
      simp only [sem, hb]
  | cons p l =>
      have hne : (c.sem s).queue ≠ [] := fun hnil => List.cons_ne_nil p l (hb.symm.trans hnil)
      rw [release_sem_self (h.value_le hne) hne, Sem.io, Sem.step]
      simp only [sem, hb, List.tail_cons]

/-! ## The counter -/

/-- The processes that wait for a device or for the clock. -/
def waiters (c : Core) : Finset PcbPtr :=
  Finset.univ.filter fun p => c.layout.IsDevice (c.q.pSemAdd p)

def Counted (c : Core) : Prop := c.softBlockedCount = c.waiters.card

/-- The number of devices `s` stands for. -/
def unit (c : Core) (s : Word) : Int := if c.layout.IsDevice s then 1 else 0

theorem unit_zero (c : Core) : c.unit 0 = 0 := if_neg c.layout.not_isDevice_zero

theorem unit_device (h : c.layout.IsDevice s) : c.unit s = 1 := if_pos h

theorem unit_other (h : ¬ c.layout.IsDevice s) : c.unit s = 0 := if_neg h

namespace Counted

theorem congr (h : Counted c) (hl : d.layout = c.layout) (hp : d.q.pSemAdd = c.q.pSemAdd)
    (hs : d.softBlockedCount = c.softBlockedCount) : Counted d := by
  rw [Counted, waiters, hl, hp, hs]
  exact h

/-- One process changes its semaphore. -/
theorem update (h : Counted c) (hl : d.layout = c.layout)
    (hp : d.q.pSemAdd = Function.update c.q.pSemAdd p s)
    (hs : d.softBlockedCount + c.unit (c.q.pSemAdd p) = c.softBlockedCount + c.unit s) :
    Counted d := by
  have hcard := card_filter_update c.q.pSemAdd c.layout.IsDevice p s
  have hcast := congrArg (Nat.cast (R := Int)) hcard
  push_cast at hcast
  have hsoft : c.softBlockedCount = c.waiters.card := h
  rw [Counted, waiters, hl, hp]
  simp only [unit, waiters] at hs hsoft
  omega

theorem dispatch (h : Counted c) : Counted c.dispatch := by
  obtain ⟨current, mode, hd⟩ := dispatch_eq c
  rw [hd]
  exact h.congr rfl rfl rfl

theorem back (h : Counted c) : Counted c.back := by
  obtain ⟨ready, current, mode, hd⟩ := back_eq c
  rw [hd]
  exact h.congr rfl rfl rfl

/-- `p`, which is not blocked, blocks on `s`. -/
theorem block (h : Counted c) (hp : c.q.Detached p) (hl : d.layout = c.layout)
    (hps : d.q.pSemAdd = c.q.pSemAdd)
    (hs : d.softBlockedCount = c.softBlockedCount + c.unit s) : Counted (d.block s p) := by
  refine Counted.dispatch (h.update (p := p) (s := s)
    (d := { d with q := d.q.insertBlocked s p, current := none }) hl ?_ ?_)
  · show Function.update d.q.pSemAdd p s = _
    rw [hps]
  · rw [hp.2.2, unit_zero]
    show d.softBlockedCount + 0 = _
    omega

/-- The first process blocked on `s` becomes ready. -/
theorem wake_unblock (h : Counted c) (hwf : c.q.Wf) {l : List PcbPtr}
    (hb : c.q.blocked s = p :: l) (hl : d.layout = c.layout)
    (hps : d.q.pSemAdd = ((c.unblock s).wake p).q.pSemAdd)
    (hs : d.softBlockedCount = c.softBlockedCount - c.unit s) : Counted d := by
  have hp : c.q.pSemAdd p = s := ((hwf.mem_blocked p s).mp (by simp [hb])).1
  refine h.update (p := p) (s := 0) hl ?_ ?_
  · rw [hps]
    simp [Core.unblock, Core.wake, Fifos.insertReady, Fifos.removeBlocked, hb]
  · rw [hp, unit_zero, hs]
    omega

theorem drain (h : Counted c) (hwf : c.q.Wf) (hs : c.layout.IsDevice s) : Counted (c.drain s) := by
  refine (drain_induct (P := fun d => d.layout = c.layout ∧ Counted d) ?_ _ c rfl hwf
    ⟨rfl, h⟩).1.2
  intro d p l ⟨hl, hd⟩ hwfd hb
  refine ⟨hl, hd.wake_unblock hwfd hb rfl rfl ?_⟩
  rw [unit_device (hl ▸ hs)]
  rfl

/-- An interrupt finds a process blocked on `s`. -/
theorem release (h : Counted c) (hwf : c.q.Wf) (hs : c.layout.IsDevice s)
    (hv : c.mem s ≤ 0) (hb : c.q.blocked s ≠ []) : Counted (c.release s) := by
  obtain ⟨p, l, hpl⟩ := List.exists_cons_of_ne_nil hb
  rw [release_of_blocked hv hpl]
  refine h.wake_unblock hwf hpl rfl rfl ?_
  rw [unit_device hs]
  rfl

/-- The death of a process that waits for no device. -/
theorem kill (h : Counted c) (hp : ¬ c.layout.IsDevice (c.q.pSemAdd p)) : Counted (c.kill p) := by
  unfold Core.kill
  split
  · refine h.update (p := p) (s := 0) rfl rfl ?_
    rw [unit_zero, unit_other hp]
    rfl
  · exact h.congr rfl rfl rfl

theorem killAll (vs : List PcbPtr) : ∀ {c : Core}, Counted c →
    (∀ v ∈ vs, ¬ c.layout.IsDevice (c.q.pSemAdd v)) → Counted (vs.foldl Core.kill c) := by
  induction vs with
  | nil => exact fun h _ => h
  | cons p vs ih =>
      intro c h hvs
      refine ih (h.kill (hvs p (by simp))) fun v hv => ?_
      have hlayout : (c.kill p).layout = c.layout := foldl_kill_layout [p] c
      rw [hlayout, kill_pSemAdd]
      by_cases hvp : v = p
      · rw [hvp, Function.update_self]
        exact c.layout.not_isDevice_zero
      · rw [Function.update_of_ne hvp]
        exact hvs v (List.mem_cons_of_mem _ hv)

end Counted

end Core

/-! ## Steps -/

/-- No `PASSEREN` and no `VERHOGEN` is for an address of `P`, and a store to
one of them leaves no unit to those who are blocked on it. -/
def Action.Minds (P : Word → Prop) (blocked : Word → List PcbPtr) : Action → Prop
  | .passeren s | .verhogen s => ¬ P s
  | .store s v => P s → v + (blocked s).length ≤ 1
  | _ => True

instance (P : Word → Prop) [DecidablePred P] (blocked : Word → List PcbPtr) (act : Action) :
    Decidable (act.Minds P blocked) :=
  match act with
  | .passeren s | .verhogen s => inferInstanceAs (Decidable (¬ P s))
  | .store s v => inferInstanceAs (Decidable (P s → v + (blocked s).length ≤ 1))
  | .createProcess | .terminate | .ioWait _ | .clockWait _ | .resume | .plt | .tick _ | .device _
  | .spurious | .panic | .reject => .isTrue trivial

theorem Action.Minds.mono {P Q : Word → Prop} {blocked : Word → List PcbPtr} {act : Action}
    (h : act.Minds P blocked) (hPQ : ∀ s, Q s → P s) : act.Minds Q blocked := by
  cases act with
  | passeren s | verhogen s => exact fun hs => h (hPQ s hs)
  | store s v => exact fun hs => h (hPQ s hs)
  | createProcess | terminate | ioWait _ | clockWait _ | resume | plt | tick _ | device _
  | spurious | panic | reject => trivial

namespace Core

variable {c c' d : Core} {p x : PcbPtr} {s : Word}

/-- The semaphore at `s` is not used as one of a process. -/
structure Leaves (s : Word) (act : Action) : Prop where
  passeren : act ≠ .passeren s
  verhogen : act ≠ .verhogen s
  store : ∀ v, act ≠ .store s v

instance (s : Word) (act : Action) : Decidable (Leaves s act) :=
  match act with
  | .passeren a => decidable_of_iff (a ≠ s)
      ⟨fun h => ⟨fun e => h (Action.passeren.inj e), nofun, nofun⟩, fun h e => h.1 (by rw [e])⟩
  | .verhogen a => decidable_of_iff (a ≠ s)
      ⟨fun h => ⟨nofun, fun e => h (Action.verhogen.inj e), nofun⟩, fun h e => h.2 (by rw [e])⟩
  | .store a v => decidable_of_iff (a ≠ s)
      ⟨fun h => ⟨nofun, nofun, fun _ e => h (Action.store.inj e).1⟩, fun h e => h.3 v (by rw [e])⟩
  | .createProcess | .terminate | .ioWait _ | .clockWait _ | .resume | .plt | .tick _ | .device _
  | .spurious | .panic | .reject => .isTrue ⟨nofun, nofun, nofun⟩

/-- Whoever minds `s` stores there or leaves it alone. -/
theorem leaves_or_store {act : Action} (h : act.Minds (· = s) c.q.blocked) :
    Leaves s act ∨ ∃ v, act = .store s v ∧ v + (c.q.blocked s).length ≤ 1 := by
  by_cases hst : ∃ v, act = .store s v
  · obtain ⟨v, rfl⟩ := hst
    exact .inr ⟨v, rfl, h rfl⟩
  · refine .inl ⟨?_, ?_, fun v hv => hst ⟨v, hv⟩⟩
    · rintro rfl
      exact h rfl
    · rintro rfl
      exact h rfl

/-- The interrupt of a device finds a process that waits for it, and nobody
who dies waits for a device. -/
structure Awaited (c : Core) (act : Action) : Prop where
  interrupt : ∀ s, act = .device s → c.q.blocked s ≠ []
  ends : act = .terminate → ∀ p, c.current = some p → ∀ x, c.tree.Reaches p x →
    ¬ c.layout.IsDevice (c.q.pSemAdd x)

/-- What the action does to `s` if it does not leave it alone. -/
inductive Concerns (s : Word) (c : Core) : Action → Core → Prop where
  | wait {cur} : c.current = some cur →
      Concerns s c (.ioWait s) (((c.addMem s (-1)).addSoft 1).block s cur)
  | clock {cur} : c.current = some cur → 0 ≤ c.mem s - 1 →
      Concerns s c (.clockWait s) ((c.addMem s (-1)).run cur)
  | clockBlocks {cur} : c.current = some cur → c.mem s - 1 < 0 →
      Concerns s c (.clockWait s) (((c.addMem s (-1)).addSoft 1).block s cur)
  | tick : Concerns s c (.tick s) { c.drain s with mem := store (c.drain s).mem s 0 }.back
  | device : Concerns s c (.device s) (c.release s).back
  | terminate {c' : Core} {vs : List PcbPtr} : (∀ p ∈ vs, ¬ c'.Live p) →
      c'.sem s = (c.sem s).step (.drop (· ∈ vs)) → Concerns s c .terminate c'
  | other {act} {c' : Core} : ¬ Names s act → act ≠ .terminate → c'.sem s = c.sem s →
      Concerns s c act c'

/-- An entry of `deviceSemaphores` that processes leave alone. -/
theorem next_concerns {fuel : Nat} {act : Action} (hinv : Inv c)
    (hnext : c.next fuel act = some c') (hs : c.layout.IsDevice s) (hcall : Leaves s act) :
    Concerns s c act c' := by
  by_cases ht : act = .terminate
  · subst ht
    obtain ⟨vs, hdead, hsem⟩ := next_terminate_sem hinv hnext s
    exact .terminate hdead hsem
  by_cases hn : ¬ Names s act
  · exact .other hn ht (next_frame hinv hnext hn ht)
  obtain ⟨-, hout⟩ := next_outcome hnext
  cases hout with
  | @ioWait cur s' hcur _ =>
      obtain rfl : s' = s := not_not.mp hn
      exact .wait hcur
  | @clock cur s' hcur _ hpos =>
      obtain rfl : s' = s := not_not.mp hn
      exact .clock hcur hpos
  | @clockBlocks cur s' hcur _ hneg =>
      obtain rfl : s' = s := not_not.mp hn
      exact .clockBlocks hcur hneg
  | @tick s' _ =>
      obtain rfl : s' = s := not_not.mp hn
      exact .tick
  | @device s' _ =>
      obtain rfl : s' = s := not_not.mp hn
      exact .device
  | @down _ s' _ _ _ | @downBlocks _ s' _ _ _ =>
      obtain rfl : s' = s := not_not.mp hn
      exact absurd rfl hcall.passeren
  | @up _ s' _ _ _ | @upWakes _ s' _ _ _ _ _ =>
      obtain rfl : s' = s := not_not.mp hn
      exact absurd rfl hcall.verhogen
  | @store s' v =>
      obtain rfl : s' = s := not_not.mp hn
      exact absurd rfl (hcall.store v)
  | terminated _ _ => exact absurd rfl ht
  | full _ _ | created _ _ _ | resume _ | preempt _ | preemptNobody _ | spurious | panic =>
      exact absurd id hn

/-- Waiting for a completion, or for a tick without one in stock. -/
theorem wait_sem (c : Core) (s : Word) (cur : PcbPtr) :
    (((c.addMem s (-1)).addSoft 1).block s cur).sem s = (c.sem s).io (.wait cur) := by
  rw [Sem.io]
  rw [block_sem_self]
  simp [sem, addMem, addSoft]
  rfl

/-- A tick lets everybody go. -/
theorem tick_sem (hwf : c.q.Wf) :
    ({ c.drain s with mem := store (c.drain s).mem s 0 }.back).sem s = ⟨0, []⟩ := by
  rw [back_sem]
  simp [sem, drain_blocked hwf]

/-- What an action means for the semaphore `s` of a device other than the clock. -/
inductive DeviceStep (s : Word) (c : Core) : Action → IoOp PcbPtr → Prop where
  | wait {cur} : c.current = some cur → DeviceStep s c (.ioWait s) (.wait cur)
  | done : DeviceStep s c (.device s) .answer
  | terminate {dead} : DeviceStep s c .terminate (.drop dead)
  | skip {act} : act ≠ .ioWait s → act ≠ .device s → DeviceStep s c act .skip

theorem next_io {fuel : Nat} {act : Action} (hinv : Inv c) (hnext : c.next fuel act = some c')
    (hs : c.layout.IsDevice s) (hcall : Leaves s act) (hclock : act ≠ .clockWait s)
    (htick : act ≠ .tick s) (h : (c.sem s).Within 1) :
    ∃ o, DeviceStep s c act o ∧ c'.sem s = (c.sem s).io o := by
  cases next_concerns hinv hnext hs hcall with
  | @wait cur hcur => exact ⟨.wait cur, .wait hcur, wait_sem c s cur⟩
  | clock _ _ => exact absurd rfl hclock
  | clockBlocks _ _ => exact absurd rfl hclock
  | tick => exact absurd rfl htick
  | device => exact ⟨.answer, .done, (back_sem _ s).trans (release_sem_io h)⟩
  | @terminate _ vs _ hsem => exact ⟨.drop (· ∈ vs), .terminate, hsem⟩
  | other hn _ hsem =>
      refine ⟨.skip, .skip ?_ ?_, hsem⟩
      · rintro rfl
        exact hn rfl
      · rintro rfl
        exact hn rfl

/-- Who waits has been running. -/
theorem DeviceStep.fresh {act : Action} {o : IoOp PcbPtr} (ho : DeviceStep s c act o)
    (hinv : Inv c) (hm : c.mode = .busy ∨ c.mode = .waiting) :
    ∀ x, o = .wait x → x ∉ c.q.blocked s := by
  rintro x rfl
  cases ho with
  | wait hcur => exact hinv.wf.not_blocked (hinv.detached hm hcur).2.2 s

/-- The value of a device's semaphore and those who wait come to one at most.
The clock's is among them. -/
def Within (c : Core) : Prop := ∀ s, c.layout.IsDevice s → (c.sem s).Within 1

theorem next_sem_within {fuel : Nat} {act : Action} (hinv : Inv c)
    (hnext : c.next fuel act = some c') (hs : c.layout.IsDevice s)
    (hminds : act.Minds (· = s) c.q.blocked) (h : (c.sem s).Within 1) : (c'.sem s).Within 1 := by
  rcases leaves_or_store hminds with hcall | ⟨v, rfl, hv⟩
  case inr =>
    obtain ⟨-, hout⟩ := next_outcome hnext
    cases hout with
    | store => simpa [Sem.Within, sem] using hv
  cases next_concerns hinv hnext hs hcall with
  | @wait cur _ | @clockBlocks cur _ _ =>
      rw [wait_sem]
      exact h.io _
  | clock _ _ =>
      have hmem : (c.sem s).value + -1 + (c.sem s).queue.length ≤ 1 := by
        unfold Sem.Within at h
        omega
      simpa [Sem.Within, sem, run, addMem] using hmem
  | tick =>
      rw [tick_sem hinv.wf, Sem.Within]
      simp
  | device =>
      rw [back_sem, release_sem_io h]
      exact h.io .answer
  | @terminate _ vs _ hsem =>
      rw [hsem]
      exact h.io (.drop (· ∈ vs))
  | other _ _ hsem =>
      rw [hsem]
      exact h

theorem next_within {fuel : Nat} {act : Action} (hinv : Inv c)
    (hminds : act.Minds c.layout.IsDevice c.q.blocked) (hnext : c.next fuel act = some c')
    (h : Within c) : Within c' := by
  intro s hs
  rw [next_layout hnext] at hs
  refine next_sem_within hinv hnext hs (hminds.mono ?_) (h s hs)
  rintro _ rfl
  exact hs

theorem next_counted {fuel : Nat} {act : Action} (htidy : c.Tidy)
    (hminds : act.Minds c.layout.IsDevice c.q.blocked) (hback : c.BackLinked act)
    (hw : c.Awaited act) (hwithin : Within c) (hnext : c.next fuel act = some c')
    (h : Counted c) : Counted c' := by
  obtain ⟨hm, hout⟩ := next_outcome hnext
  have hwf := htidy.inv.wf
  have hdet : ∀ {cur}, c.current = some cur → c.q.Detached cur := htidy.inv.detached hm
  cases hout with
  | full _ _ | created _ _ _ | resume _ | preemptNobody _ | panic | down _ _ _ | up _ _ _
  | clock _ _ _ | store => exact h.congr rfl rfl rfl
  | @terminated cur vs t hcur hw' =>
      obtain ⟨age, hok⟩ := htidy.tree
      have hk := htidy.killed hm hcur (hback rfl _ hcur) hw' hok
      refine (Counted.killAll vs (c := { c with tree := t }) (h.congr rfl rfl rfl)
        fun v hv => ?_).dispatch
      rcases hk.reached v hv with rfl | hr
      · show ¬ c.layout.IsDevice (c.q.pSemAdd v)
        rw [(hdet hcur).2.2]
        exact c.layout.not_isDevice_zero
      · exact hw.ends rfl cur hcur v hr
  | @downBlocks cur s hcur _ _ =>
      refine h.block (hdet hcur) rfl rfl ?_
      rw [unit_other hminds, add_zero]
      rfl
  | @upWakes cur s p l _ _ hb =>
      refine h.wake_unblock (s := s) (d := (((c.addMem s 1).unblock s).wake p).run cur) hwf hb
        rfl rfl ?_
      rw [unit_other hminds, sub_zero]
      rfl
  | @ioWait cur s hcur hs | @clockBlocks cur s hcur hs _ =>
      refine h.block (hdet hcur) rfl rfl ?_
      rw [unit_device hs]
      rfl
  | @preempt cur _ => exact Counted.dispatch (c := c.wake cur) (h.congr rfl rfl rfl)
  | @tick s hs =>
      exact Counted.back (c := { c.drain s with mem := _ }) ((h.drain hwf hs).congr rfl rfl rfl)
  | @device s hs =>
      have hb := hw.interrupt s rfl
      exact (h.release hwf hs ((hwithin s hs).value_le hb) hb).back
  | spurious => exact h.back

/-! ## An empty ready queue -/

/-- What the machine does when no process is ready. -/
structure Decided (c : Core) : Prop where
  halted : c.mode = .halted ↔ ∀ p, ¬ c.Live p
  waiting : c.mode = .waiting ↔ ∃ p, c.layout.IsDevice (c.q.pSemAdd p)
  panicked : c.mode = .panicked ↔ (∃ p, c.Live p) ∧ ∀ p, ¬ c.layout.IsDevice (c.q.pSemAdd p)

theorem dispatch_idle (h : c.dispatch.mode ≠ .busy) :
    (c.dispatch.mode = .halted ↔ c.dispatch.processCount = 0) ∧
      (c.dispatch.mode = .waiting ↔
        c.dispatch.processCount ≠ 0 ∧ 0 < c.dispatch.softBlockedCount) ∧
      (c.dispatch.mode = .panicked ↔
        c.dispatch.processCount ≠ 0 ∧ ¬ 0 < c.dispatch.softBlockedCount) := by
  unfold dispatch at h ⊢
  split at h
  · exact absurd rfl h
  · split
    next hp => simp [hp]
    next hp =>
      split
      next hs => simp [hp, hs]
      next hs => simp [hp, hs]

/-- Where the scheduler has found no ready process. -/
theorem Outcome.dispatched {fuel : Nat} {act : Action} (h : Outcome fuel c act c')
    (hm : c'.mode ≠ .busy) (hact : act ≠ .panic) (hplt : act = .plt → c.current ≠ none)
    (hst : ∀ s v, act ≠ .store s v) : ∃ d : Core, c' = d.dispatch := by
  have hback : ∀ {d : Core}, d.back.mode ≠ .busy → ∃ e : Core, d.back = e.dispatch := by
    intro d hd
    unfold back at hd ⊢
    split at hd
    · exact absurd rfl hd
    · exact ⟨d, rfl⟩
  cases h with
  | full _ _ | created _ _ _ | resume _ | down _ _ _ | up _ _ _ | upWakes _ _ _ | clock _ _ _ =>
      exact absurd rfl hm
  | terminated _ _ | preempt _ => exact ⟨_, rfl⟩
  | downBlocks _ _ _ | ioWait _ _ | clockBlocks _ _ _ => exact ⟨_, rfl⟩
  | preemptNobody hnone => exact absurd hnone (hplt rfl)
  | tick _ | device _ | spurious => exact hback hm
  | store => exact absurd rfl (hst _ _)
  | panic => exact absurd rfl hact

theorem Tidy.count_eq (h : Tidy c) : c.processCount = c.liveSet.card := by
  have hlen : c.q.free.toFinset.card = c.q.free.length :=
    List.toFinset_card_of_nodup h.inv.wf.free_nodup
  have hle : c.q.free.toFinset.card ≤ maxProc := by
    simpa using Finset.card_le_univ c.q.free.toFinset
  rw [h.count, liveSet, Finset.card_compl, hlen, Fintype.card_fin]
  omega

/-- With the right counts, the right decision. -/
theorem dispatch_decided (htidy : Tidy c.dispatch) (hcount : Counted c.dispatch)
    (hlive : ∀ p, p ∉ c.dispatch.q.free → c.dispatch.Live p) (hm : c.dispatch.mode ≠ .busy) :
    Decided c.dispatch := by
  obtain ⟨hhalted, hwaiting, hpanicked⟩ := dispatch_idle hm
  generalize c.dispatch = d at *
  have hnone : d.processCount = 0 ↔ ∀ p, ¬ d.Live p := by
    rw [htidy.count_eq, Nat.cast_eq_zero, Finset.card_eq_zero, Finset.eq_empty_iff_forall_notMem]
    constructor
    · exact fun h p hp => h p (htidy.mem_liveSet_of_live hp)
    · exact fun h p hp => h p (hlive p (mem_liveSet.mp hp))
  have hsoft : 0 < d.softBlockedCount ↔ ∃ p, d.layout.IsDevice (d.q.pSemAdd p) := by
    have hc : d.softBlockedCount = d.waiters.card := hcount
    rw [hc, Int.natCast_pos, Finset.card_pos]
    simp [Finset.Nonempty, waiters]
  have hwlive : ∀ p, d.layout.IsDevice (d.q.pSemAdd p) → d.Live p := fun p hp =>
    .inr (.inl (accessible_ne hp.accessible).1)
  rw [Ne, hnone, not_forall_not] at hwaiting hpanicked
  rw [hsoft] at hwaiting hpanicked
  constructor
  case halted => rw [hhalted, hnone]
  case waiting =>
    rw [hwaiting]
    exact ⟨fun h => h.2, fun h => ⟨h.imp hwlive, h⟩⟩
  case panicked => rw [hpanicked, not_exists]

end Core

/-! ## Runs -/

namespace Kernel

/-- The processes blocked on an entry of `deviceSemaphores`. -/
def softBlocked (k : Kernel Queues) : List PcbPtr :=
  k.q.blockedList.filter fun p => k.layout.IsDevice (k.q.pSemAdd p)

/-- The processor halts if no process is live, waits if one waits for a
device, and has stopped for a deadlock otherwise. -/
structure Decided (k : Kernel Queues) : Prop where
  halted : k.cpu = .halted ↔ ∀ p, ¬ k.Live p
  waiting : k.cpu = .waiting ↔ k.softBlocked ≠ []
  panicked : k.cpu = .panicked ↔ (∃ p, k.Live p) ∧ k.softBlocked = []

end Kernel

namespace Rep

variable {k : Kernel Queues} {c : Core}

theorem mem_softBlocked (h : Rep k c) (p : PcbPtr) :
    p ∈ k.softBlocked ↔ c.layout.IsDevice (c.q.pSemAdd p) := by
  rw [Kernel.softBlocked, List.mem_filter, h.queues.mem_blockedList, h.queues.pSemAdd, h.layout,
    decide_eq_true_eq]
  exact and_iff_right_of_imp fun hd => (Core.accessible_ne hd.accessible).1

theorem softBlocked_length (h : Rep k c) : k.softBlocked.length = c.waiters.card := by
  have hnd : k.softBlocked.Nodup := h.queues.blockedList_nodup.filter _
  rw [← List.toFinset_card_of_nodup hnd]
  congr 1
  ext p
  simp [h.mem_softBlocked, Core.waiters]

theorem decided (h : Rep k c) (hd : c.Decided) : k.Decided := by
  have hsome : k.softBlocked ≠ [] ↔ ∃ p, c.layout.IsDevice (c.q.pSemAdd p) := by
    simp only [← h.mem_softBlocked]
    exact ⟨List.exists_mem_of_ne_nil _, fun ⟨_, hp⟩ => List.ne_nil_of_mem hp⟩
  have hnone : k.softBlocked = [] ↔ ∀ p, ¬ c.layout.IsDevice (c.q.pSemAdd p) := by
    rw [← not_iff_not, ← Ne, hsome, not_forall_not]
  have hmode := h.mode
  constructor
  case halted =>
    simp only [h.live_iff, ← hd.halted, hmode]
    exact Cpu.mode_eq_halted.symm
  case waiting =>
    rw [hsome, ← hd.waiting, hmode]
    exact Cpu.mode_eq_waiting.symm
  case panicked =>
    simp only [hnone, h.live_iff, ← hd.panicked, hmode]
    exact Cpu.mode_eq_panicked.symm

end Rep

namespace Trans

variable (x : Trans Queues)

/-- `PASSEREN` and `VERHOGEN` leave `deviceSemaphores` alone, and a store there
leaves no unit to those who are blocked. -/
def Plain : Prop := x.action.Minds x.before.layout.IsDevice x.before.blockedOn

instance : Decidable x.Plain := inferInstanceAs (Decidable (Action.Minds _ _ _))

/-- The interrupt of a device finds a process that waits for it, and nobody
who dies waits for a device. -/
structure Awaited : Prop where
  interrupt : ∀ s, x.action = .device s → x.before.blockedOn s ≠ []
  ends : x.action = .terminate → ∀ p, x.before.currentProcess = some p →
    ∀ y, x.before.tree.Reaches p y → y ∉ x.before.softBlocked

/-- The scheduler has found no ready process. -/
structure Idles : Prop where
  idle : x.after.cpu.busy = false
  notPanic : x.action ≠ .panic
  notPlt : x.action = .plt → x.before.currentProcess ≠ none

end Trans

/-- What is known in a run whose interrupts and terminations are `Awaited`. -/
structure SoftRep (k : Kernel Queues) (c : Core) : Prop where
  rep : Rep k c
  tidy : c.Tidy
  within : c.Within
  counted : c.Counted

theorem SoftRep.step {k k' : Kernel Queues} {c d : Core} {e : Event} {fuel : Nat}
    (h : SoftRep k c) (hd : Rep k' d) (hnext : c.next fuel (action k.toShared e) = some d)
    (hplain : (⟨k, e, k'⟩ : Trans Queues).Plain) (hback : (⟨k, e, k'⟩ : Trans Queues).BackLinked)
    (hw : (⟨k, e, k'⟩ : Trans Queues).Awaited) :
    SoftRep k' d ∧ ((⟨k, e, k'⟩ : Trans Queues).Idles → (∀ a v, e ≠ .store a v) → d.Decided) := by
  have hminds : (action k.toShared e).Minds c.layout.IsDevice c.q.blocked := by
    rw [h.rep.layout, ← funext h.rep.blockedOn]
    exact hplain
  have hback' := h.rep.backLinked hback
  have hw' : c.Awaited (action k.toShared e) := by
    constructor
    case interrupt =>
      intro s hs
      rw [← h.rep.blockedOn]
      exact hw.interrupt s hs
    case ends =>
      intro hact p hp x hx
      rw [← h.rep.mem_softBlocked]
      exact hw.ends hact p (h.rep.current.symm.trans hp) x (h.rep.tree ▸ hx)
  have htidy := Core.next_tidy h.tidy hback' hnext
  have hcount := Core.next_counted h.tidy hminds hback' hw' h.within hnext h.counted
  have hwithin := Core.next_within h.rep.inv hminds hnext h.within
  refine ⟨⟨hd, htidy, hwithin, hcount⟩, fun hidle hst => ?_⟩
  have hm : d.mode ≠ .busy := by
    rw [hd.mode, Ne, Cpu.mode_eq_busy, Bool.not_eq_true]
    exact hidle.idle
  obtain ⟨b, rfl⟩ := (Core.next_outcome hnext).2.dispatched hm hidle.notPanic
    (fun hact hnone => hidle.notPlt hact (h.rep.current.symm.trans hnone))
    fun a v hact => hst a v (action_store hact)
  exact Core.dispatch_decided htidy hcount
    (fun p hp => Core.next_live h.tidy hback' hnext hidle.notPanic hp) hm

theorem bootCore_soft (m : Memory) : (bootCore m).Within ∧ (bootCore m).Counted := by
  constructor
  · intro s hs
    have hs : m.layout.IsDevice s := hs
    simp [Core.sem, Sem.Within, bootCore, hs]
  · have hnone : (bootCore m).waiters = ∅ :=
      Finset.filter_eq_empty_iff.mpr fun _ _ => m.layout.not_isDevice_zero
    rw [Core.Counted, hnone]
    rfl

/-- Stores are those of a process that runs. -/
theorem Step.store_busy {Q : Type} [QueueOps Q] {k k' : Kernel Q} {a : Word} {v : Int}
    (h : Step k (.store a v) k') : k'.cpu.busy = true := by
  obtain ⟨fuel, h⟩ := h
  obtain ⟨hb, h⟩ := Option.ite_none_right_eq_some.mp h
  obtain rfl := Option.some.inj h
  exact hb

theorem Run.soft {k₀ k : Kernel Queues} {tr : List (Trans Queues)} (h₀ : Boot k₀)
    (h : Run k₀ tr k) (hplain : ∀ x ∈ tr, x.Plain) (hback : ∀ x ∈ tr, x.BackLinked)
    (hw : ∀ x ∈ tr, x.Awaited) :
    (∃ c, SoftRep k c) ∧ ∀ x ∈ tr, x.Idles → x.after.Decided := by
  induction h with
  | nil =>
      obtain ⟨m, hrep⟩ := h₀.rep
      obtain ⟨hwithin, hcount⟩ := bootCore_soft m
      exact ⟨⟨_, hrep, Core.bootCore_tidy m, hwithin, hcount⟩, by simp⟩
  | @snoc tr k e k' _ hstep ih =>
      obtain ⟨⟨c, hc⟩, hall⟩ := ih (fun x hx => hplain x (List.mem_append_left _ hx))
        (fun x hx => hback x (List.mem_append_left _ hx))
        (fun x hx => hw x (List.mem_append_left _ hx))
      have hlast : (⟨k, e, k'⟩ : Trans Queues) ∈ tr ++ [⟨k, e, k'⟩] := by simp
      obtain ⟨fuel, d, hnext, hd⟩ := hc.rep.step hstep
      obtain ⟨hsoft, hdec⟩ :=
        hc.step hd hnext (hplain _ hlast) (hback _ hlast) (hw _ hlast)
      refine ⟨⟨d, hsoft⟩, fun x hx hidle => ?_⟩
      rcases List.mem_append.mp hx with hx | hx
      · exact hall x hx hidle
      · obtain rfl := List.mem_singleton.mp hx
        refine hd.decided (hdec hidle ?_)
        rintro a v rfl
        exact absurd (hstep.store_busy.symm.trans hidle.idle) nofun

/-- In every run in which a process waits for each interrupt of a device, and
nobody who dies waits for one, the counter is right, and so is what the
machine does whenever no process is ready. -/
theorem softBlockedCount_of_awaited {k₀ k : Kernel Queues} {tr : List (Trans Queues)}
    (h₀ : Boot k₀) (h : Run k₀ tr k) (hplain : ∀ x ∈ tr, x.Plain)
    (hback : ∀ x ∈ tr, x.BackLinked) (hw : ∀ x ∈ tr, x.Awaited) :
    k.softBlockedCount = k.softBlocked.length ∧ ∀ x ∈ tr, x.Idles → x.after.Decided := by
  obtain ⟨⟨c, hc⟩, hall⟩ := Run.soft h₀ h hplain hback hw
  refine ⟨?_, hall⟩
  rw [hc.rep.softBlocked_length, ← hc.rep.softBlockedCount]
  exact hc.counted

/-- `SYSCALL(IOWAIT, line, dev, 0)` -/
def callWait (line dev : Word) : Event := syscall ioWait line dev 0

def callClock : Event := syscall clockWait 0 0 0

/-- The stores of `initDevSemaphores` to `deviceSemaphores`. -/
def initDevSemaphores (l : Layout) : List Event :=
  (List.range deviceNum).map fun i => .store (l.semAdd (BitVec.ofNat 32 i)) 1

/-- After that the first process waits for a disk, its first child twice for
the clock, and its second child ends; then the disk is done. -/
def awaitedScript : List Event :=
  initDevSemaphores Memory.zero.layout ++
    [callCreate, callCreate, callWait 3 0, callClock, callClock, callTerm, deviceDone 3 0]

/-- Evident cases of `Awaited`: who dies has no children. -/
def Action.Evident (k : Kernel Queues) : Action → Prop
  | .device s => k.blockedOn s ≠ []
  | .terminate => ∀ p, k.currentProcess = some p → k.tree.pChild p = none
  | _ => True

instance (k : Kernel Queues) (act : Action) : Decidable (act.Evident k) :=
  match act with
  | .device s => inferInstanceAs (Decidable (k.blockedOn s ≠ []))
  | .terminate => inferInstanceAs (Decidable (∀ p, _ → k.tree.pChild p = none))
  | .createProcess | .passeren _ | .verhogen _ | .ioWait _ | .clockWait _ | .resume | .plt
  | .tick _ | .store _ _ | .spurious | .panic | .reject => .isTrue trivial

theorem Trans.awaited_of_evident {x : Trans Queues} (h : x.action.Evident x.before) :
    x.Awaited := by
  constructor
  case interrupt =>
    intro s hs
    rw [hs] at h
    exact h
  case ends =>
    rintro hact p hp y ⟨c, hc, -⟩
    rw [hact] at h
    exact absurd ((h p hp).symm.trans hc) nofun

/-- In the meantime the processor waits. -/
theorem softBlockedCount_of_awaited_script : ∃ k₀ tr k, Boot k₀ ∧ Run k₀ tr k ∧
    tr.map Trans.event = awaitedScript ∧
    (∃ x ∈ tr, x.Idles ∧ x.after.cpu = .waiting ∧ x.after.Decided) ∧
      k.softBlockedCount = 1 ∧ k.softBlocked.length = 1 := by
  have hany : (Script.eval walkFuel .zero .zero awaitedScript).any (fun x =>
      x.trace.all (fun y => y.Plain ∧ y.BackLinked ∧ y.action.Evident y.before) ∧
        x.trace.any (fun y => y.action = .terminate ∧ y.after.cpu = .waiting) ∧
        x.final.softBlockedCount = 1) = true := by
    decide +kernel
  obtain ⟨x, hx, h⟩ := Script.exists_of_any hany
  obtain ⟨hall, hwait, hcount⟩ := of_decide_eq_true h
  obtain ⟨hboot, hrun, hevents⟩ := Script.run hx
  have hgood : ∀ y ∈ x.trace, y.Plain ∧ y.BackLinked ∧ y.action.Evident y.before := fun y hy =>
    of_decide_eq_true (List.all_eq_true.mp hall y hy)
  obtain ⟨hsoft, hdec⟩ := softBlockedCount_of_awaited hboot hrun (fun y hy => (hgood y hy).1)
    (fun y hy => (hgood y hy).2.1) fun y hy => Trans.awaited_of_evident (hgood y hy).2.2
  obtain ⟨y, hy, hw⟩ := List.any_eq_true.mp hwait
  obtain ⟨hact, hcpu⟩ := of_decide_eq_true hw
  have hidle : y.Idles := by
    refine ⟨by rw [hcpu]; rfl, ?_, ?_⟩
    · rw [hact]
      exact nofun
    · exact fun hplt => absurd (hact.symm.trans hplt) nofun
  refine ⟨x.start, x.trace, x.final, hboot, hrun, hevents,
    ⟨y, hy, hidle, hcpu, hdec y hy hidle⟩, hcount, ?_⟩
  rw [hcount] at hsoft
  omega

/-- A disk that nobody waits for is done, and then the only process waits for it. -/
def unawaitedScript : List Event := [deviceDone 3 0, callWait 3 0]

/-- The counter is back at zero, and the nucleus gives up although the disk
is going to answer. -/
theorem not_decided_unawaitedScript : ∃ k₀ tr k, Boot k₀ ∧ Run k₀ tr k ∧
    tr.map Trans.event = unawaitedScript ∧ k.softBlockedCount = 0 ∧ k.softBlocked = [0] ∧
      k.cpu = .panicked ∧ ∃ x ∈ tr, x.Idles ∧ ¬ x.after.Decided := by
  have hany : (Script.eval walkFuel .zero .zero unawaitedScript).any (fun x =>
      x.final.softBlockedCount = 0 ∧ x.final.softBlocked = [0] ∧ x.final.cpu = .panicked ∧
        x.trace.any (fun y => y.action = .ioWait (x.start.layout.semAdd 0) ∧
          y.after.cpu = .panicked ∧ y.after.softBlocked ≠ [])) = true := by
    decide +kernel
  obtain ⟨x, hx, h⟩ := Script.exists_of_any hany
  obtain ⟨hcount, hblocked, hcpu, hlast⟩ := of_decide_eq_true h
  obtain ⟨hboot, hrun, hevents⟩ := Script.run hx
  obtain ⟨y, hy, hw⟩ := List.any_eq_true.mp hlast
  obtain ⟨hact, hpanic, hsome⟩ := of_decide_eq_true hw
  have hidle : y.Idles := by
    refine ⟨by rw [hpanic]; rfl, ?_, ?_⟩
    · rw [hact]
      exact nofun
    · exact fun hplt => absurd (hact.symm.trans hplt) nofun
  refine ⟨x.start, x.trace, x.final, hboot, hrun, hevents, hcount, hblocked, hcpu, y, hy, hidle, ?_⟩
  exact fun hd => hsome (hd.panicked.mp hpanic).2

end Pandos
