/-
# `Pandos.Mutex` — a semaphore as a mutex

A semaphore of processes that starts at one, and on which only those do a
`VERHOGEN` who have got through their `PASSEREN`, is a mutex in every run,
whatever else the processes and the devices do: at most one process is inside
(`mutual_exclusion`).

Those who are killed while they wait give back their unit.  Whoever is killed
inside does not: the semaphore stays taken, and nobody gets inside any more.
-/
import Pandos.Lib.Lock
import Pandos.Semaphores

namespace Pandos

open Semaphore

/-! ## Who is inside -/

namespace Trans

variable (x : Trans Queues) (s : Word) (p : PcbPtr)

/-- `p` gets through its `PASSEREN`, at once or because it is woken. -/
def enters : Bool :=
  decide (x.after.Live p ∧ p ∉ x.after.blockedOn s ∧
    (x.action = .passeren s ∧ x.before.currentProcess = some p ∨ p ∈ x.before.blockedOn s))

/-- `p` does a `VERHOGEN`. -/
def leaves : Bool := decide (x.action = .verhogen s ∧ x.before.currentProcess = some p)

end Trans

/-- `p` has got through its `PASSEREN`, and has neither done its `VERHOGEN` nor
been killed. -/
def inside (s : Word) (tr : List (Trans Queues)) (p : PcbPtr) : Bool :=
  tr.foldl (fun b x => x.enters s p || b && !x.leaves s p && decide (x.after.Live p)) false

/-- Somebody has been killed inside. -/
def Orphaned (s : Word) (tr : List (Trans Queues)) : Prop :=
  ∃ tr₁ x tr₂ p, tr = tr₁ ++ x :: tr₂ ∧ inside s tr₁ p = true ∧ ¬ x.after.Live p

/-- Only those do a `VERHOGEN` who are inside. -/
def Disciplined (s : Word) (tr : List (Trans Queues)) : Prop :=
  ∀ tr₁ x tr₂, tr = tr₁ ++ x :: tr₂ → x.action = .verhogen s →
    ∃ p, x.before.currentProcess = some p ∧ inside s tr₁ p = true

section

variable {s : Word} {k₀ k k' : Kernel Queues} {tr : List (Trans Queues)} {x : Trans Queues}
  {p : PcbPtr} {c d : Core} {e : Event}

theorem inside_snoc : inside s (tr ++ [x]) p = true ↔
    x.enters s p = true ∨ (inside s tr p = true ∧ x.leaves s p = false) ∧ x.after.Live p := by
  simp [inside]

theorem orphaned_snoc : Orphaned s (tr ++ [x]) ↔
    Orphaned s tr ∨ ∃ p, inside s tr p = true ∧ ¬ x.after.Live p := by
  constructor
  · rintro ⟨tr₁, y, tr₂, p, htr, hp, hdead⟩
    rcases List.eq_nil_or_concat tr₂ with rfl | ⟨l, z, rfl⟩
    · obtain ⟨rfl, hy⟩ := List.append_inj' htr rfl
      obtain rfl := List.singleton_inj.mp hy
      exact .inr ⟨p, hp, hdead⟩
    · rw [List.concat_eq_append, ← List.cons_append, ← List.append_assoc] at htr
      obtain ⟨rfl, -⟩ := List.append_inj' htr rfl
      exact .inl ⟨tr₁, y, l, p, rfl, hp, hdead⟩
  · rintro (⟨tr₁, y, tr₂, p, rfl, hp, hdead⟩ | ⟨p, hp, hdead⟩)
    · exact ⟨tr₁, y, tr₂ ++ [x], p, by simp, hp, hdead⟩
    · exact ⟨tr, x, [], p, rfl, hp, hdead⟩

theorem Disciplined.init (h : Disciplined s (tr ++ [x])) : Disciplined s tr := by
  rintro tr₁ y tr₂ rfl
  exact h tr₁ y (tr₂ ++ [x]) (by simp)

/-! ## One event -/

/-- Who gets through its `PASSEREN` at once, and who does a `VERHOGEN`, goes on. -/
theorem Core.next_current_live {fuel : Nat} {cur : PcbPtr} (hcur : c.current = some cur)
    (h : c.next fuel (.passeren s) = some d ∧ ¬ c.mem s - 1 < 0 ∨
      c.next fuel (.verhogen s) = some d) : d.Live cur := by
  have hsame : ∀ {p}, c.current = some p → p = cur := fun hp =>
    Option.some.inj (hp.symm.trans hcur)
  rcases h with ⟨h, hpos⟩ | h
  · cases (Core.next_outcome h).2 with
    | down hp _ _ =>
        obtain rfl := hsame hp
        exact .inr (.inr rfl)
    | downBlocks _ _ hneg => exact absurd hneg hpos
  · cases (Core.next_outcome h).2 with
    | up hp _ _ | upWakes hp _ _ =>
        obtain rfl := hsame hp
        exact .inr (.inr rfl)

/-- Who is inside after a transition, those who have been killed included. -/
def Trans.Within (x : Trans Queues) (s : Word) (tr : List (Trans Queues)) (p : PcbPtr) : Prop :=
  x.enters s p = true ∨ inside s tr p = true ∧ x.leaves s p = false

/-- The same for the core. -/
def Core.Enters (s : Word) (act : Action) (c d : Core) (p : PcbPtr) : Prop :=
  d.Live p ∧ p ∉ d.q.blocked s ∧ (act = .passeren s ∧ c.current = some p ∨ p ∈ c.q.blocked s)

theorem within_iff (hc : Rep k c) (hd : Rep k' d) :
    (⟨k, e, k'⟩ : Trans Queues).Within s tr p ↔
      Core.Enters s (Pandos.action k.toShared e) c d p ∨ inside s tr p = true ∧
        ¬ (Pandos.action k.toShared e = .verhogen s ∧ c.current = some p) := by
  rw [Trans.Within, Trans.enters, Trans.leaves, decide_eq_true_eq, decide_eq_false_iff_not,
    hd.live_iff, hd.blockedOn, hc.blockedOn, Core.Enters, hc.current]
  rfl

section

variable {act : Action} {cur : PcbPtr} {fuel : Nat} {Q : Prop}

/-- Who passes, and nobody else, gets inside by a `PASSEREN`. -/
theorem enters_down (hnext : c.next fuel (.passeren s) = some d) (hcur : c.current = some cur)
    (hnb : cur ∉ c.q.blocked s) (hsem : d.sem s = (c.sem s).step (.down cur)) :
    Core.Enters s (.passeren s) c d p ↔ ¬ (c.sem s).value - 1 < 0 ∧ p = cur := by
  have hq : d.q.blocked s = ((c.sem s).step (.down cur)).queue := congrArg Sem.queue hsem
  simp only [Sem.step] at hq
  by_cases hneg : (c.sem s).value - 1 < 0
  · rw [if_pos hneg] at hq
    refine iff_of_false ?_ fun h => h.1 hneg
    rintro ⟨-, hout, ⟨-, hp⟩ | hp⟩
    · obtain rfl := Option.some.inj (hp.symm.trans hcur)
      exact hout (by rw [hq]; simp)
    · exact hout (by rw [hq]; exact List.mem_append_left _ hp)
  · rw [if_neg hneg] at hq
    constructor
    · rintro ⟨-, hout, ⟨-, hp⟩ | hp⟩
      · exact ⟨hneg, Option.some.inj (hp.symm.trans hcur)⟩
      · rw [hq] at hout
        exact absurd hp hout
    · rintro ⟨-, rfl⟩
      refine ⟨Core.next_current_live hcur (.inl ⟨hnext, hneg⟩), ?_, .inl ⟨rfl, hcur⟩⟩
      rw [hq]
      exact hnb

/-- The first of the queue, and nobody else, gets inside by a `VERHOGEN`. -/
theorem enters_up (hnd : (c.q.blocked s).Nodup) (hsem : d.sem s = (c.sem s).step .up)
    (hup : ∀ z l, c.q.blocked s = z :: l → d.q.ready = c.q.ready ++ [z] ∧
      d.q.blocked = Function.update c.q.blocked s l) :
    Core.Enters s (.verhogen s) c d p ↔ (c.sem s).queue.head? = some p := by
  have hq : d.q.blocked s = (c.q.blocked s).tail := congrArg Sem.queue hsem
  have hhead : (c.sem s).queue.head? = (c.q.blocked s).head? := rfl
  rw [Core.Enters, hq, hhead]
  cases hb : c.q.blocked s with
  | nil =>
      refine iff_of_false ?_ nofun
      rintro ⟨-, -, ⟨h, -⟩ | hp⟩
      · cases h
      · cases hp
  | cons z l =>
      have hz : z ∉ l := (List.nodup_cons.mp (hb ▸ hnd)).1
      constructor
      · rintro ⟨-, hout, ⟨h, -⟩ | hp⟩
        · cases h
        · exact congrArg some ((List.mem_cons.mp hp).resolve_right hout).symm
      · intro hp
        obtain rfl := Option.some.inj hp
        refine ⟨.inl ?_, hz, .inr List.mem_cons_self⟩
        rw [(hup z l hb).1]
        simp

/-- Those who are killed leave the queue, but do not get inside. -/
theorem not_enters (hp : act ≠ .passeren s) (hq : ∀ p, p ∈ c.q.blocked s → p ∉ d.q.blocked s →
    ¬ d.Live p) :
    ¬ Core.Enters s act c d p := by
  rintro ⟨hlive, hout, ⟨h, -⟩ | hin⟩
  · exact hp h
  · exact hq p hin hout hlive

end

/-- What the operation of a transition does to those inside. -/
theorem guards_op (hc : Rep k c) (hd : Rep k' d) {fuel : Nat}
    (hnext : c.next fuel (Pandos.action k.toShared e) = some d) {o : Op PcbPtr}
    (ho : Core.SemStep s c d (Pandos.action k.toShared e) o) (hsem : d.sem s = (c.sem s).step o)
    (hv : Pandos.action k.toShared e = .verhogen s →
      ∃ p, k.currentProcess = some p ∧ inside s tr p = true)
    (h : (c.sem s).Guards (inside s tr · = true) (Orphaned s tr)) :
    (d.sem s).Guards ((⟨k, e, k'⟩ : Trans Queues).Within s tr) (Orphaned s tr) := by
  have hwithin : ∀ p, (⟨k, e, k'⟩ : Trans Queues).Within s tr p ↔ _ := fun p => within_iff hc hd
  have hq : d.q.blocked s = ((c.sem s).step o).queue := congrArg Sem.queue hsem
  rw [hsem]
  generalize Pandos.action k.toShared e = act at *
  cases ho with
  | @down cur hcur hnb =>
      refine h.down fun p => (hwithin p).trans ?_
      rw [enters_down hnext hcur hnb hsem, or_comm]
      exact or_congr_left (and_iff_left fun h => by cases h.1)
  | up hup =>
      obtain ⟨cur, hcur, hin⟩ := hv rfl
      refine h.up hin fun p => (hwithin p).trans ?_
      rw [enters_up (hc.inv.wf.blocked_nodup s) hsem hup]
      refine or_iff_left ?_
      rintro ⟨hp, hstay⟩
      obtain rfl := h.unique hp hin
      exact hstay ⟨rfl, hc.current.trans hcur⟩
  | @drop dead hdead =>
      refine (h.drop dead).congr fun p => (hwithin p).trans ?_
      have hact : Action.terminate ≠ .passeren s := nofun
      rw [or_iff_right (not_enters hact fun z hz hout => ?_)]
      · exact and_iff_left fun h => by cases h.1
      · rw [hq] at hout
        refine hdead z (by_contra fun hnot => hout (List.mem_filter.mpr ⟨hz, ?_⟩))
        simpa using hnot
  | skip hp hv ht =>
      refine h.congr fun p => (hwithin p).trans ?_
      rw [or_iff_right (not_enters hp fun z hz hout => ?_)]
      · exact and_iff_left fun h => hv h.1
      · rw [hq] at hout
        exact absurd hz hout

/-- Who does a `VERHOGEN` goes on, and so does who enters. -/
theorem within_dead (hc : Rep k c) (hd : Rep k' d) {fuel : Nat}
    (hnext : c.next fuel (Pandos.action k.toShared e) = some d) :
    (∃ p, (⟨k, e, k'⟩ : Trans Queues).Within s tr p ∧ ¬ inside s (tr ++ [⟨k, e, k'⟩]) p = true) ↔
      ∃ p, inside s tr p = true ∧ ¬ k'.Live p := by
  constructor
  · rintro ⟨p, hp | hp, hout⟩
    · exact absurd (inside_snoc.mpr (.inl hp)) hout
    · exact ⟨p, hp.1, fun hlive => hout (inside_snoc.mpr (.inr ⟨hp, hlive⟩))⟩
  · rintro ⟨p, hp, hdead⟩
    have hdead' : ¬ d.Live p := mt (hd.live_iff p).mpr hdead
    refine ⟨p, (within_iff hc hd).mpr (.inr ⟨hp, ?_⟩), fun hin => ?_⟩
    · rintro ⟨hact, hcur⟩
      rw [hact] at hnext
      exact hdead' (Core.next_current_live hcur (.inr hnext))
    · rcases inside_snoc.mp hin with henter | ⟨-, hlive⟩
      · exact hdead (of_decide_eq_true henter).1
      · exact hdead hlive

/-! ## Runs -/

structure MutexInv (s : Word) (k₀ : Kernel Queues) (tr : List (Trans Queues)) (c : Core) :
    Prop where
  layout : c.layout = k₀.layout
  guards : Disciplined s tr → (c.sem s).Guards (inside s tr · = true) (Orphaned s tr)

theorem MutexInv.step {fuel : Nat} (h : MutexInv s k₀ tr c) (hc : Rep k c) (hd : Rep k' d)
    (hnext : c.next fuel (Pandos.action k.toShared e) = some d) (hs : s ≠ 0)
    (hdev : ¬ k₀.layout.IsDevice s) (hst : ∀ v, e ≠ .store s v) :
    MutexInv s k₀ (tr ++ [⟨k, e, k'⟩]) d := by
  obtain ⟨o, ho, hsem⟩ := Core.next_sem hc.inv hnext hs (h.layout ▸ hdev)
    fun v hv => hst v (action_store hv)
  refine ⟨(Core.next_layout hnext).trans h.layout, fun hdis => ?_⟩
  have hop := guards_op hc hd hnext ho hsem (hdis tr _ [] rfl) (h.guards hdis.init)
  refine hop.lose (fun p hp => ?_) ?_
  · rcases inside_snoc.mp hp with hp | hp
    · exact .inl hp
    · exact .inr hp.1
  · rw [orphaned_snoc, within_dead hc hd hnext]

/-- At most one process is inside, and the semaphore is taken exactly while one is
inside or has been killed there; in the second case nobody gets inside again. -/
theorem mutual_exclusion (h : SemRun s k₀ tr k) (h1 : k₀.mem s = 1) (hdis : Disciplined s tr) :
    (∀ p q, inside s tr p = true → inside s tr q = true → p = q) ∧
      (Orphaned s tr → ∀ p, inside s tr p = false) ∧
      ((∃ p, inside s tr p = true) ∨ Orphaned s tr → k.mem s = -(k.blockedOn s).length) ∧
      (¬ ((∃ p, inside s tr p = true) ∨ Orphaned s tr) → k.mem s = 1 ∧ k.blockedOn s = []) := by
  obtain ⟨hreach, hrun, hs, hdev, -, hnobody, hcalls⟩ := h
  obtain ⟨c₀, hc₀⟩ := hreach.rep
  have hstart : MutexInv s k₀ [] c₀ := by
    refine ⟨hc₀.layout, fun _ => ?_⟩
    have hsem : c₀.sem s = ⟨1, []⟩ := by
      rw [Core.sem, hc₀.mem, h1, ← hc₀.blockedOn, hnobody]
    rw [hsem]
    refine Sem.Guards.start.lose (fun p hp => ?_) ⟨?_, ?_⟩
    · cases hp
    · rintro ⟨tr₁, x, tr₂, p, htr, -⟩
      simp at htr
    · rintro (h | ⟨p, hp, -⟩)
      · exact h.elim
      · exact hp.elim
  obtain ⟨c, hc, hinv⟩ := hrun.invariant (P := MutexInv s k₀) hcalls ⟨c₀, hc₀, hstart⟩
    fun hc hd hnext hst hinv => hinv.step hc hd hnext hs hdev hst
  have hg := hinv.guards hdis
  have hval : (c.sem s).value = k.mem s := congrFun hc.mem s
  have hqueue : (c.sem s).queue = k.blockedOn s := (hc.blockedOn s).symm
  refine ⟨fun p q => hg.unique, fun hl p => ?_, fun ht => ?_, fun ht => ?_⟩
  · exact Bool.eq_false_iff.mpr (hg.alone hl p)
  · rw [← hval, ← hqueue]
    exact hg.taken ht
  · rw [← hval, ← hqueue, hg.free ht]
    exact ⟨rfl, rfl⟩

def checksDiscipline (s : Word) (tr : List (Trans Queues)) : Bool :=
  decide (∀ n (hn : n < tr.length), (tr[n]).action = .verhogen s →
    ((tr[n]).before.currentProcess.any (inside s (tr.take n))) = true)

theorem disciplined_of_checks (h : checksDiscipline s tr = true) : Disciplined s tr := by
  rintro tr₁ x tr₂ rfl hact
  have hlt : tr₁.length < (tr₁ ++ x :: tr₂).length := by simp
  have hx : (tr₁ ++ x :: tr₂)[tr₁.length] = x := by simp
  have hany := of_decide_eq_true h tr₁.length hlt (by rw [hx]; exact hact)
  rw [hx, List.take_left] at hany
  obtain ⟨p, hp, hin⟩ := Option.any_eq_true .. |>.mp hany
  exact ⟨p, hp, hin⟩

end

/-- Three processes want to get inside; the first has left, and has to wait when
it comes back. -/
def contended : List Event :=
  [callCreate, callCreate, callP 0x20200000, pltTick, callP 0x20200000, callP 0x20200000,
    callV 0x20200000, callP 0x20200000]

/-- The second is inside.  When it ends there, the others wait for ever. -/
theorem mutual_exclusion_contended : ∃ k₀ tr k k', SemRun 0x20200000 k₀ tr k ∧
    k₀.mem 0x20200000 = 1 ∧ tr.map Trans.event = contended ∧ inside 0x20200000 tr 1 = true ∧
      k.blockedOn 0x20200000 = [2, 0] ∧ k.mem 0x20200000 = -2 ∧ Step k callTerm k' ∧
        ∀ p, inside 0x20200000 (tr ++ [⟨k, callTerm, k'⟩]) p = false := by
  have hany : (Script.eval 50 { Memory.zero with mem := fun s => if s = 0x20200000 then 1 else 0 }
      .zero contended).any (fun x => (0x20200000 : Word) ≠ 0 ∧
        ¬ x.start.layout.IsDevice 0x20200000 ∧ x.start.mem 0x20200000 = 1 ∧
        x.start.blockedOn 0x20200000 = [] ∧ x.final.blockedOn 0x20200000 = [2, 0] ∧
        inside 0x20200000 x.trace 1 = true ∧
        (step 50 x.final callTerm).any (fun k' => ¬ k'.Live 1 ∧
          checksDiscipline 0x20200000 (x.trace ++ [⟨x.final, callTerm, k'⟩]) = true) = true) =
            true := by
    decide +kernel
  obtain ⟨x, hx, h⟩ := Script.exists_of_any hany
  obtain ⟨h0, hdev, h1, hnobody, hblocked, hin, hany⟩ := of_decide_eq_true h
  obtain ⟨k', hk', h⟩ := Option.any_eq_true .. |>.mp hany
  obtain ⟨hdead, hchecks⟩ := of_decide_eq_true h
  obtain ⟨hboot, hrun, hevents⟩ := Script.run hx
  have hnostore : ∀ y ∈ x.trace ++ [⟨x.final, callTerm, k'⟩], ∀ v, y.event ≠ .store 0x20200000 v := by
    intro y hy v hv
    have hmem := List.mem_map_of_mem (f := Trans.event) hy
    rw [List.map_append, hevents, hv] at hmem
    simp [contended, callCreate, callP, callV, callTerm, pltTick, syscall] at hmem
  have hdis := disciplined_of_checks hchecks
  have hsem : SemRun 0x20200000 x.start x.trace x.final :=
    ⟨⟨_, [], hboot, .nil⟩, hrun, h0, hdev, by rw [h1]; decide, hnobody, fun y hy =>
      hnostore y (List.mem_append_left _ hy)⟩
  have hsem' : SemRun 0x20200000 x.start (x.trace ++ [⟨x.final, callTerm, k'⟩]) k' :=
    ⟨⟨_, [], hboot, .nil⟩, hrun.snoc ⟨50, hk'⟩, h0, hdev, by rw [h1]; decide, hnobody, hnostore⟩
  have hval := (mutual_exclusion hsem h1 hdis.init).2.2.1 (.inl ⟨1, hin⟩)
  rw [hblocked] at hval
  have hlost : Orphaned 0x20200000 (x.trace ++ [⟨x.final, callTerm, k'⟩]) :=
    orphaned_snoc.mpr (.inr ⟨1, hin, hdead⟩)
  exact ⟨x.start, x.trace, x.final, k', hsem, h1, hevents, hin, hblocked, hval, ⟨50, hk'⟩,
    (mutual_exclusion hsem' h1 hdis).2.1 hlost⟩

end Pandos
