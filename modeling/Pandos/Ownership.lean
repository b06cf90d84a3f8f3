/-
# `Pandos.Ownership` — every PCB has exactly one place

The invariant `Core.Tidy` of all runs in which the process tree is taken
apart properly: a PCB that is not free is ready, blocked or running, the free
ring holds no PCB twice, `processCount` counts the others, and the tree is in
order (`Tree.Ok`).

The one thing that can break it is a termination whose process has lost its
back link: `unlinkChild` clears `p_prev_sib` of the sibling behind the one it
takes out, and when that sibling ends in turn, the one in front keeps
pointing to it and a later termination frees it again
(`not_partitioned_staleScript`).  In all other runs the PCBs stay partitioned
(`partitioned_of_backLinked`).
-/
import Pandos.Forest
import Pandos.Script

namespace Pandos

open Simulation

namespace Core

variable {c c' : Core} {p x : PcbPtr} {s : Word}

/-! ## What most moves leave alone -/

/-- The free PCBs and the tree are the same. -/
structure Kept (c c' : Core) : Prop where
  free : c'.q.free = c.q.free
  dup : c'.q.dup = c.q.dup
  tree : c'.tree = c.tree
  processCount : c'.processCount = c.processCount

namespace Kept

variable {d : Core}

theorem refl (c : Core) : Kept c c := ⟨rfl, rfl, rfl, rfl⟩

theorem trans (h : Kept c c') (h' : Kept c' d) : Kept c d :=
  ⟨h'.free.trans h.free, h'.dup.trans h.dup, h'.tree.trans h.tree,
    h'.processCount.trans h.processCount⟩

theorem run (h : Kept c d) (p : PcbPtr) : Kept c (d.run p) := ⟨h.free, h.dup, h.tree, h.processCount⟩

theorem wake (h : Kept c d) (p : PcbPtr) : Kept c (d.wake p) :=
  ⟨h.free, h.dup, h.tree, h.processCount⟩

theorem addMem (h : Kept c d) (s : Word) (v : Int) : Kept c (d.addMem s v) :=
  ⟨h.free, h.dup, h.tree, h.processCount⟩

theorem addSoft (h : Kept c d) (v : Int) : Kept c (d.addSoft v) :=
  ⟨h.free, h.dup, h.tree, h.processCount⟩

theorem dispatch (h : Kept c d) : Kept c d.dispatch := by
  obtain ⟨current, mode, hd⟩ := dispatch_eq d
  rw [hd]
  exact ⟨h.free, h.dup, h.tree, h.processCount⟩

theorem back (h : Kept c d) : Kept c d.back := by
  unfold Core.back
  split
  · exact h.run _
  · exact h.dispatch

theorem block (h : Kept c d) (s : Word) (p : PcbPtr) : Kept c (d.block s p) :=
  dispatch ⟨h.free, h.dup, h.tree, h.processCount⟩

theorem unblock (h : Kept c d) (s : Word) : Kept c (d.unblock s) := by
  refine h.trans ?_
  unfold Core.unblock Fifos.removeBlocked
  split <;> exact ⟨rfl, rfl, rfl, rfl⟩

theorem drain (hwf : c.q.Wf) (s : Word) : Kept c (c.drain s) := by
  refine (drain_induct (P := fun d => Kept c d) ?_ _ c rfl hwf (refl c)).1
  exact fun d p l hd _ _ => ((hd.unblock s).wake p).addSoft _

theorem release (c : Core) (s : Word) : Kept c (c.release s) := by
  rcases release_cases c s with h | ⟨p, l, -, h⟩
  · rw [h]
    exact (refl c).addSoft (-1)
  · rw [h]
    exact ((((refl c).addSoft (-1)).unblock s).wake p).addMem s 1

end Kept

/-- Only creations and terminations change them. -/
theorem Outcome.kept {fuel : Nat} {act : Action} (h : Outcome fuel c act c') (hwf : c.q.Wf)
    (hc : act = .createProcess → c.q.free = []) (ht : act ≠ .terminate) : Kept c c' := by
  have hrefl := Kept.refl c
  cases h with
  | full _ _ => exact hrefl.run _
  | created _ hf _ => exact absurd (hf.symm.trans (hc rfl)) nofun
  | terminated _ _ => exact absurd rfl ht
  | down _ _ _ | clock _ _ _ | up _ _ _ => exact (hrefl.addMem _ _).run _
  | downBlocks _ _ _ => exact (hrefl.addMem _ _).block _ _
  | upWakes _ _ _ => exact (((hrefl.addMem _ _).unblock _).wake _).run _
  | ioWait _ _ | clockBlocks _ _ _ => exact ((hrefl.addMem _ _).addSoft _).block _ _
  | resume _ => exact hrefl.run _
  | preempt _ => exact (hrefl.wake _).dispatch
  | @tick s _ =>
      have hd := Kept.drain hwf s
      exact .back ⟨hd.free, hd.dup, hd.tree, hd.processCount⟩
  | @device s _ => exact (Kept.release c s).back
  | spurious => exact hrefl.back
  | preemptNobody _ | store | panic => exact ⟨rfl, rfl, rfl, rfl⟩

/-! ## Everybody has a place -/

/-- `p` is ready or blocked. -/
def Placed (c : Core) (p : PcbPtr) : Prop := p ∈ c.q.ready ∨ c.q.pSemAdd p ≠ 0

theorem run_live (h : c.Placed x ∨ x = p) : (c.run p).Live x := by
  rcases h with (h | h) | h
  · exact .inl h
  · exact .inr (.inl h)
  · exact .inr (.inr (by simp [running, run, h]))

theorem dispatch_live (h : c.Placed x) : c.dispatch.Live x := by
  rw [Live, dispatch_ready, dispatch_pSemAdd, dispatch_running]
  rcases h with h | h
  · cases hl : c.q.ready with
    | nil =>
        rw [hl] at h
        cases h
    | cons p l =>
        rw [hl] at h
        rcases List.mem_cons.mp h with rfl | h
        · exact .inr (.inr rfl)
        · exact .inl h
  · exact .inr (.inl h)

theorem block_live (hs : s ≠ 0) (h : c.Placed x ∨ x = p) : (c.block s p).Live x := by
  refine dispatch_live ?_
  by_cases hxp : x = p
  · exact .inr (by simpa [Fifos.insertBlocked, hxp] using hs)
  · rcases h.resolve_right hxp with h | h
    · exact .inl h
    · exact .inr (by simpa [Fifos.insertBlocked, hxp] using h)

theorem wake_placed (h : c.Placed x ∨ x = p) : (c.wake p).Placed x := by
  rcases h with (h | h) | h
  · exact .inl (by simp [wake, Fifos.insertReady, h])
  · exact .inr h
  · exact .inl (by simp [wake, Fifos.insertReady, h])

theorem wake_unblock_placed {l : List PcbPtr} (hb : c.q.blocked s = p :: l) (h : c.Placed x) :
    ((c.unblock s).wake p).Placed x := by
  refine wake_placed ?_
  by_cases hxp : x = p
  · exact .inr hxp
  · refine .inl ?_
    rcases h with h | h
    · exact .inl (by simpa [unblock, Fifos.removeBlocked, hb] using h)
    · exact .inr (by simpa [unblock, Fifos.removeBlocked, hb, hxp] using h)

theorem drain_placed (hwf : c.q.Wf) (s : Word) (h : c.Placed x) : (c.drain s).Placed x := by
  refine (drain_induct (P := fun d => d.Placed x) ?_ _ c rfl hwf h).1
  intro d p l hd _ hb
  exact wake_unblock_placed hb hd

theorem release_placed (s : Word) (h : c.Placed x) : (c.release s).Placed x := by
  rcases release_cases c s with hrel | ⟨p, l, hb, hrel⟩
  · rw [hrel]
    exact h
  · rw [hrel]
    exact wake_unblock_placed (c := c.addSoft (-1)) hb h

theorem back_live (h : c.Placed x ∨ c.current = some x) : c.back.Live x := by
  unfold back
  split
  next p hp =>
    refine run_live (h.imp_right fun hx => ?_)
    exact Option.some.inj (hx.symm.trans hp)
  next hnone => exact dispatch_live (h.resolve_right fun hx => absurd (hnone.symm.trans hx) nofun)

/-! ## Terminations -/

theorem kill_free (hp : p ∉ c.q.free) : (c.kill p).q.free = c.q.free ++ [p] ∧
    (c.kill p).q.dup = c.q.dup ∧ (c.kill p).processCount = c.processCount - 1 := by
  have htake : c.q.free.takeWhile (· ≠ p) = c.q.free :=
    List.takeWhile_eq_self_iff.mpr fun x hx => by simpa using fun e : x = p => hp (e ▸ hx)
  unfold kill
  split
  · simp only [free, addMem, Fifos.freePcbRing, Fifos.outBlocked, htake]
    simp [hp]
  · simp only [free, Fifos.freePcbRing, Fifos.outReady, htake]
    simp [hp]

theorem kill_placed (hxp : x ≠ p) : (c.kill p).Placed x ↔ c.Placed x := by
  unfold kill Placed
  split
  · simp [free, addMem, Fifos.freePcbRing, Fifos.outBlocked, hxp]
  · simp [free, Fifos.freePcbRing, Fifos.outReady, List.mem_erase_of_ne hxp]

theorem killAll_free (vs : List PcbPtr) : ∀ {c : Core}, vs.Nodup → (∀ v ∈ vs, v ∉ c.q.free) →
    (vs.foldl kill c).q.free = c.q.free ++ vs ∧ (vs.foldl kill c).q.dup = c.q.dup ∧
      (vs.foldl kill c).processCount = c.processCount - vs.length := by
  induction vs with
  | nil => simp
  | cons p vs ih =>
      intro c hnd hfree
      obtain ⟨hp, hnd⟩ := List.nodup_cons.mp hnd
      obtain ⟨h1, h2, h3⟩ := kill_free (c := c) (hfree p (by simp))
      obtain ⟨h4, h5, h6⟩ := ih (c := c.kill p) hnd fun v hv => by
        rw [h1, List.mem_append, not_or]
        refine ⟨hfree v (List.mem_cons_of_mem _ hv), ?_⟩
        rw [List.mem_singleton]
        exact fun e => hp (e ▸ hv)
      rw [List.foldl_cons, h4, h5, h6, h1, h2, h3]
      refine ⟨by simp, rfl, ?_⟩
      simp only [List.length_cons]
      omega

theorem killAll_placed (vs : List PcbPtr) : ∀ {c : Core}, x ∉ vs →
    ((vs.foldl kill c).Placed x ↔ c.Placed x) := by
  induction vs with
  | nil => exact fun _ => Iff.rfl
  | cons p vs ih =>
      intro c hx
      rw [List.mem_cons, not_or] at hx
      rw [List.foldl_cons, ih hx.2, kill_placed hx.1]

/-! ## The invariant -/

/-- The running process is in no queue. -/
theorem Inv.running_detached (h : c.Inv) {p : PcbPtr} (hp : c.running = some p) :
    c.q.Detached p := by
  unfold running at hp
  split at hp
  next hm => exact h.detached (.inl hm) hp
  · exact nomatch hp

theorem Inv.not_free (h : c.Inv) {p : PcbPtr} (hp : c.Live p) : p ∉ c.q.free := by
  intro hf
  rcases hp with hr | hs | hrun
  · exact h.wf.disjoint hf hr
  · exact hs (h.wf.pSemAdd_free p hf)
  · exact (h.running_detached hrun).1 hf

/-- The PCBs that are not free. -/
def liveSet (c : Core) : Finset PcbPtr := (c.q.free.toFinset)ᶜ

theorem mem_liveSet : p ∈ c.liveSet ↔ p ∉ c.q.free := by simp [liveSet]

theorem created_liveSet (hwf : c.q.Wf) {cur tmp : PcbPtr} {l : List PcbPtr} {t : Tree}
    (hf : c.q.free = tmp :: l) : (c.created cur tmp l t).liveSet = insert tmp c.liveSet := by
  have hnd := hwf.free_nodup
  rw [hf] at hnd
  ext x
  rw [Finset.mem_insert, mem_liveSet, mem_liveSet, hf, List.mem_cons, not_or]
  show x ∉ l ↔ _
  by_cases hx : x = tmp
  · simp [hx, (List.nodup_cons.mp hnd).1]
  · simp [hx]

/-- Every PCB has its place, and the tree is in order. -/
structure Tidy (c : Core) : Prop where
  inv : c.Inv
  dup : c.q.dup = false
  live : c.mode ≠ .panicked → ∀ p, p ∉ c.q.free → c.Live p
  count : c.processCount = maxProc - c.q.free.length
  tree : ∃ age, c.tree.Ok c.liveSet age

namespace Tidy

theorem kept (h : Tidy c) (hk : Kept c c') (hinv : Inv c')
    (hlive : c'.mode ≠ .panicked → ∀ p, p ∉ c.q.free → c'.Live p) : Tidy c' where
  inv := hinv
  dup := hk.dup.trans h.dup
  live hm p hp := hlive hm p (hk.free ▸ hp)
  count := by rw [hk.processCount, hk.free, h.count]
  tree := by
    rw [hk.tree, liveSet, hk.free]
    exact h.tree

/-- While the machine goes on, a PCB that is not free is placed or current. -/
theorem placed (h : Tidy c) (hm : c.mode = .busy ∨ c.mode = .waiting) (hp : p ∉ c.q.free) :
    c.Placed p ∨ c.current = some p := by
  have hnp : c.mode ≠ .panicked := by
    rcases hm with hm | hm <;> simp [hm]
  rcases h.live hnp p hp with hr | hs | hrun
  · exact .inl (.inl hr)
  · exact .inl (.inr hs)
  · refine .inr ?_
    unfold running at hrun
    split at hrun
    · exact hrun
    · exact nomatch hrun

theorem current_live (h : Tidy c) (hm : c.mode = .busy ∨ c.mode = .waiting)
    (hp : c.current = some p) : p ∈ c.liveSet :=
  mem_liveSet.mpr (h.inv.detached hm hp).1

theorem created_live (h : Tidy c) (hm : c.mode = .busy ∨ c.mode = .waiting) {cur tmp : PcbPtr}
    {l : List PcbPtr} {t : Tree} (hcur : c.current = some cur) (hf : c.q.free = tmp :: l)
    (hp : p ∉ l) : (c.created cur tmp l t).Live p := by
  refine run_live ?_
  by_cases hpt : p = tmp
  · exact .inl (.inl (by simp [hpt]))
  · have hpf : p ∉ c.q.free := by
      rw [hf, List.mem_cons, not_or]
      exact ⟨hpt, hp⟩
    rcases h.placed hm hpf with (hr | hs) | hpc
    · exact .inl (.inl (by simp [hr]))
    · exact .inl (.inr hs)
    · exact .inr (Option.some.inj (hpc.symm.trans hcur))

/-- With a new process. -/
theorem created (h : Tidy c) (hm : c.mode = .busy ∨ c.mode = .waiting) {cur tmp : PcbPtr}
    {l : List PcbPtr} {t : Tree} (hcur : c.current = some cur) (hf : c.q.free = tmp :: l)
    (ht : insertChild (c.tree.clear tmp) cur tmp = some t) : Tidy (c.created cur tmp l t) := by
  have hset : (c.created cur tmp l t).liveSet = insert tmp c.liveSet :=
    created_liveSet h.inv.wf hf
  have hnot : tmp ∉ c.liveSet := by simp [mem_liveSet, hf]
  obtain ⟨age, hok⟩ := h.tree
  refine ⟨created_inv h.inv.wf (h.inv.detached hm hcur) hf t, h.dup,
    fun _ p hp => h.created_live hm hcur hf hp, ?_, ?_⟩
  · have := h.count
    rw [hf, List.length_cons] at this
    show c.processCount + 1 = maxProc - (l.length : Int)
    omega
  · rw [hset]
    exact ⟨_, hok.hook (insertChild_hook hok (h.current_live hm hcur) hnot ht)
      (h.current_live hm hcur) hnot⟩

theorem mem_liveSet_of_live (h : Tidy c) (hp : c.Live p) : p ∈ c.liveSet :=
  mem_liveSet.mpr (h.inv.not_free hp)

variable {cur : PcbPtr} {vs : List PcbPtr} {t : Tree} {age : PcbPtr → Nat}

/-- The dead are freed behind the free ones. -/
theorem terminated_free (h : Tidy c) (hk : c.tree.Killed t c.liveSet age cur vs) :
    (c.killAll vs t).dispatch.q.free = c.q.free ++ vs ∧
      (c.killAll vs t).dispatch.q.dup = false ∧
      (c.killAll vs t).dispatch.processCount = c.processCount - vs.length := by
  have hfree : ∀ v ∈ vs, v ∉ c.q.free := fun v hv => mem_liveSet.mp (hk.sub v hv).1
  obtain ⟨h1, h2, h3⟩ := killAll_free (c := { c with tree := t }) vs hk.nodup hfree
  have hkeep := (Kept.refl (c.killAll vs t)).dispatch
  exact ⟨hkeep.free.trans h1, hkeep.dup.trans (h2.trans h.dup), hkeep.processCount.trans h3⟩

theorem terminated_liveSet (h : Tidy c) (hk : c.tree.Killed t c.liveSet age cur vs) :
    (c.killAll vs t).dispatch.liveSet = c.liveSet \ vs.toFinset := by
  ext x
  simp [mem_liveSet, (h.terminated_free hk).1]

theorem terminated_live (h : Tidy c) (hm : c.mode = .busy ∨ c.mode = .waiting)
    (hcur : c.current = some cur) (hk : c.tree.Killed t c.liveSet age cur vs)
    (hp : p ∉ (c.killAll vs t).dispatch.q.free) : (c.killAll vs t).dispatch.Live p := by
  rw [(h.terminated_free hk).1, List.mem_append, not_or] at hp
  refine dispatch_live ((killAll_placed vs (c := { c with tree := t }) hp.2).mpr ?_)
  refine (h.placed hm hp.1).resolve_right fun hpc => ?_
  exact hp.2 (Option.some.inj (hcur.symm.trans hpc) ▸ hk.self)

/-- After a termination. -/
theorem terminated (h : Tidy c) (hm : c.mode = .busy ∨ c.mode = .waiting)
    (hcur : c.current = some cur) (hk : c.tree.Killed t c.liveSet age cur vs) :
    Tidy (c.killAll vs t).dispatch := by
  obtain ⟨hf, hdup, hcount⟩ := h.terminated_free hk
  refine ⟨dispatch_inv (killAll_wf vs h.inv.wf), hdup,
    fun _ p hp => h.terminated_live hm hcur hk hp, ?_, age, ?_⟩
  · rw [hcount, hf, List.length_append, h.count, Nat.cast_add, sub_sub]
  · rw [h.terminated_liveSet hk, (Kept.refl (c.killAll vs t)).dispatch.tree, killAll_tree]
    exact hk.ok

end Tidy

/-- At a termination, the back link of the current process is right. -/
def BackLinked (c : Core) (act : Action) : Prop :=
  act = .terminate → ∀ p, c.current = some p → PrevAgrees c.tree p

theorem Tidy.killed (h : Tidy c) (hm : c.mode = .busy ∨ c.mode = .waiting) {cur : PcbPtr}
    {vs : List PcbPtr} {t : Tree} {fuel : Nat} (hcur : c.current = some cur)
    (hprev : PrevAgrees c.tree cur) (hw : treeWalk fuel c.tree cur = some (vs, t))
    {age : PcbPtr → Nat} (hok : c.tree.Ok c.liveSet age) :
    c.tree.Killed t c.liveSet age cur vs := by
  obtain ⟨vs', t', hw', hk⟩ := treeWalk_spec hok (h.current_live hm hcur) hprev
  have h1 := treeWalk_le (Nat.le_max_left fuel walkFuel) hw
  have h2 := treeWalk_le (Nat.le_max_right fuel walkFuel) hw'
  obtain ⟨rfl, rfl⟩ := Prod.mk.inj (Option.some.inj (h1.symm.trans h2))
  exact hk

/-- Who is not free is live, unless the nucleus has given up. -/
theorem next_live {fuel : Nat} {act : Action} (h : Tidy c) (hb : BackLinked c act)
    (hnext : c.next fuel act = some c') (hact : act ≠ .panic) (hp : p ∉ c'.q.free) :
    c'.Live p := by
  obtain ⟨hm, hout⟩ := next_outcome hnext
  have hwf := h.inv.wf
  have hplaced : ∀ {d : Core}, Kept c d → p ∉ d.q.free → c.Placed p ∨ c.current = some p :=
    fun hk hp => h.placed hm (hk.free ▸ hp)
  have hcov : ∀ {cur d}, c.current = some cur → Kept c d → p ∉ d.q.free → c.Placed p ∨ p = cur :=
    fun hcur hk hp => (hplaced hk hp).imp_right fun e => Option.some.inj (e.symm.trans hcur)
  have hkept : (act = .createProcess → c.q.free = []) → act ≠ .terminate → Kept c c' :=
    hout.kept hwf
  cases hout with
  | full hcur hf => exact run_live (hcov hcur (hkept (fun _ => hf) nofun) hp)
  | created hcur hf ht => exact h.created_live hm hcur hf hp
  | terminated hcur hw =>
      obtain ⟨age, hok⟩ := h.tree
      exact h.terminated_live hm hcur (h.killed hm hcur (hb rfl _ hcur) hw hok) hp
  | down hcur _ _ | clock hcur _ _ | up hcur _ _ | resume hcur =>
      exact run_live (hcov hcur (hkept nofun nofun) hp)
  | downBlocks hcur hs _ =>
      exact block_live (accessible_ne hs).1 (hcov hcur (hkept nofun nofun) hp)
  | @upWakes cur s q l hcur _ hq =>
      refine run_live ((hcov hcur (hkept nofun nofun) hp).imp_left ?_)
      exact wake_unblock_placed (c := c.addMem s 1) hq
  | ioWait hcur hs | clockBlocks hcur hs _ =>
      exact block_live (accessible_ne hs.accessible).1 (hcov hcur (hkept nofun nofun) hp)
  | preempt hcur => exact dispatch_live (wake_placed (hcov hcur (hkept nofun nofun) hp))
  | preemptNobody hnone =>
      rcases hplaced (hkept nofun nofun) hp with (hr | hs) | hpc
      · exact .inl hr
      · exact .inr (.inl hs)
      · exact absurd (hnone.symm.trans hpc) nofun
  | @tick s _ =>
      refine back_live ?_
      rcases hplaced (hkept nofun nofun) hp with hpl | hpc
      · exact .inl (drain_placed hwf s hpl)
      · exact .inr ((drain_current hwf s).1.trans hpc)
  | @device s _ =>
      refine back_live ?_
      rcases hplaced (hkept nofun nofun) hp with hpl | hpc
      · exact .inl (release_placed s hpl)
      · exact .inr ((release_current c s).trans hpc)
  | spurious => exact back_live (hplaced (hkept nofun nofun) hp)
  | store =>
      refine h.live ?_ p hp
      rcases hm with hm | hm <;> simp [hm]
  | panic => exact absurd rfl hact

theorem next_tidy {fuel : Nat} {act : Action} (h : Tidy c) (hb : BackLinked c act)
    (hnext : c.next fuel act = some c') : Tidy c' := by
  have hinv := next_inv h.inv hnext
  obtain ⟨hm, hout⟩ := next_outcome hnext
  by_cases hcreate : act = .createProcess ∧ c.q.free ≠ []
  · obtain ⟨rfl, hne⟩ := hcreate
    cases hout with
    | full _ hf => exact absurd hf hne
    | created hcur hf ht => exact h.created hm hcur hf ht
  by_cases hterm : act = .terminate
  · subst hterm
    cases hout with
    | terminated hcur hw =>
        obtain ⟨age, hok⟩ := h.tree
        exact h.terminated hm hcur (h.killed hm hcur (hb rfl _ hcur) hw hok)
  have hfree : act = .createProcess → c.q.free = [] := fun e => by_contra fun hne => hcreate ⟨e, hne⟩
  have hk := hout.kept h.inv.wf hfree hterm
  refine h.kept hk hinv fun hp p hpf => next_live h hb hnext ?_ (hk.free ▸ hpf)
  rintro rfl
  cases hout
  exact hp rfl

/-! ## Boot -/

theorem bootCore_tidy (m : Memory) : Tidy (bootCore m) where
  inv := by
    obtain ⟨k, -, h⟩ := main_rep m .zero
    exact h.inv
  dup := rfl
  live _ p hp := by
    have h0 : p = 0 := by
      by_contra hne
      exact hp (by
        have := List.mem_finRange p
        rw [List.finRange_succ, List.mem_cons] at this
        exact this.resolve_left hne)
    exact .inr (.inr (by rw [h0]; rfl))
  count := rfl
  tree := ⟨fun _ => 0, ⟨nofun, nofun, nofun, nofun, nofun, nofun, nofun, nofun, nofun, nofun⟩⟩

end Core

/-! ## System calls in kernel mode -/

/-- `saved` is the state of a process that has issued the call `n`. -/
structure Calls (saved : State) (n : Word) : Prop where
  code : causeGetExcCode saved.cause = excSys
  kernelMode : saved.status &&& userPOn = 0
  number : saved.regA0 = n

section

variable {Q : Type} [QueueOps Q] {k : Kernel Q} {saved : State} {hw : Hw} {cur : PcbPtr}
  {fuel : Nat}

/-- The state in which a call is served. -/
def Kernel.entry (k : Kernel Q) (saved : State) (hw : Hw) (cur : PcbPtr) : Kernel Q :=
  saveState { k with biosDataPage := saved, devReg := hw.devReg } cur

theorem step_call {n : Word} (hb : k.cpu.busy) (h : Calls saved n) :
    step fuel k (.exception saved hw) = handleNucleousSystemcalls fuel hw
      { k with biosDataPage := saved, devReg := hw.devReg } := by
  have htakes : takesException k.cpu saved.cause = true := by simp [takesException, hb]
  simp only [step, if_pos htakes, handleExceptions, h.code]
  rfl

theorem step_create (hb : k.cpu.busy) (hcur : k.currentProcess = some cur)
    (h : Calls saved createProcess) :
    step fuel k (.exception saved hw) = createProcessCall hw (k.entry saved hw cur) cur := by
  rw [step_call hb h]
  obtain ⟨sh, q⟩ := k
  have hcur : sh.currentProcess = some cur := hcur
  simp only [handleNucleousSystemcalls, h.kernelMode, h.number, hcur, ne_eq, not_true_eq_false,
    if_false, if_true, Option.bind_eq_bind, Option.bind_some, Kernel.entry]

theorem step_terminate (hb : k.cpu.busy) (hcur : k.currentProcess = some cur)
    (h : Calls saved termProcess) :
    step fuel k (.exception saved hw) =
      terminateProcess fuel hw (k.entry saved hw cur) cur := by
  rw [step_call hb h]
  obtain ⟨sh, q⟩ := k
  have hcur : sh.currentProcess = some cur := hcur
  simp only [handleNucleousSystemcalls, h.kernelMode, h.number, hcur, ne_eq, not_true_eq_false,
    if_false, if_true, Option.bind_eq_bind, Option.bind_some,
    show ¬ termProcess = createProcess by decide, Kernel.entry]

end

/-! ### What they return -/

section

variable {k k' : Kernel Queues} {saved : State} {hw : Hw} {cur : PcbPtr} {c : Core}

/-- `CREATEPROCESS` returns `-1` if there is no free PCB, and `0` otherwise. -/
theorem createProcessCall_result (h : createProcessCall hw k cur = some k') :
    ∃ s, k'.cpu = .running s ∧ s.regV0 = if k.q.pcbFreeH = none then -1 else 0 := by
  obtain ⟨⟨tmp, k₁⟩, hal, h⟩ := Option.bind_eq_some_iff.mp h
  obtain ⟨⟨r, q⟩, hring, hal⟩ := Option.bind_eq_some_iff.mp hal
  cases hH : k.q.pcbFreeH with
  | none =>
      have hnone : allocPcbRing k.q = some (none, k.q) := by simp [allocPcbRing, hH]
      obtain ⟨rfl, rfl⟩ := Prod.mk.inj (Option.some.inj (hnone.symm.trans hring))
      obtain ⟨rfl, rfl⟩ := Prod.mk.inj (Option.some.inj hal)
      obtain rfl := Option.some.inj h
      exact ⟨_, rfl, by simp [Kernel.setState, State.setV0, State.regV0]⟩
  | some toReturn =>
      have hsome : r = some toReturn := by
        have hring : allocPcbRing k.q = some (r, q) := hring
        simp only [allocPcbRing, hH] at hring
        obtain ⟨L, -, hring⟩ := Option.bind_eq_some_iff.mp hring
        exact (Prod.mk.inj (Option.some.inj hring)).1.symm
      subst hsome
      obtain ⟨rfl, rfl⟩ := Prod.mk.inj (Option.some.inj hal)
      obtain ⟨-, h⟩ := guard_bind_eq_some.mp h
      obtain ⟨k₂, -, h⟩ := Option.bind_eq_some_iff.mp h
      obtain ⟨t, -, h⟩ := Option.bind_eq_some_iff.mp h
      obtain rfl := Option.some.inj h
      exact ⟨_, rfl, by simp [Kernel.setState, State.setV0, State.regV0]⟩

/-- `CREATEPROCESS` returns. -/
theorem Core.Tidy.create_returns (h : c.Tidy) (hk : Rep k c) (hb : k.cpu.busy)
    (hcall : Calls saved createProcess) (hacc : accessible saved.regA1) (hw : Hw) :
    ∃ k', Step k (.exception saved hw) k' := by
  obtain ⟨cur, hcur, hkcur, -⟩ := hk.exists_current hb
  let a : Kernel Fifos := ⟨k.toShared, c.q⟩
  have hcore : (a.entry saved hw cur).core = c := hk.core.symm
  have hcreate : ∃ d, c.create cur = some d := by
    unfold Core.create
    split
    · exact ⟨_, rfl⟩
    next tmp l hf =>
      obtain ⟨age, hok⟩ := h.tree
      have hnot : tmp ∉ c.liveSet := by simp [Core.mem_liveSet, hf]
      obtain ⟨t, ht⟩ := insertChild_total hok cur hnot
      exact ⟨_, Option.bind_eq_some_iff.mpr ⟨t, ht, rfl⟩⟩
  obtain ⟨d, hd⟩ := hcreate
  have hacc' : accessible ((a.entry saved hw cur).pS cur).regA1 := by
    simpa [Kernel.entry, saveState, Kernel.setState, State.regA1] using hacc
  have hret : Refines _ (createProcessCall hw (a.entry saved hw cur) cur) _ :=
    createProcessCall_core (a := a.entry saved hw cur) hk.queues.wf fun _ => hacc'
  rw [hcore] at hret
  obtain ⟨a', ha', -⟩ := hret d hd
  have hstep : step 0 a (.exception saved hw) = some a' :=
    (step_create (k := a) hb hkcur hcall).trans ha'
  exact hk.returns hstep

/-- So does `TERMPROCESS`. -/
theorem Core.Tidy.terminate_returns (h : c.Tidy) (hk : Rep k c) (hb : k.cpu.busy)
    (hcall : Calls saved termProcess) (hprev : c.BackLinked .terminate) (hw : Hw) :
    ∃ k', Step k (.exception saved hw) k' := by
  obtain ⟨cur, hcur, hkcur, -⟩ := hk.exists_current hb
  let a : Kernel Fifos := ⟨k.toShared, c.q⟩
  have hcore : (a.entry saved hw cur).core = c := hk.core.symm
  obtain ⟨age, hok⟩ := h.tree
  obtain ⟨vs, t, hwalk, -⟩ :=
    treeWalk_spec hok (h.current_live (.inl (hk.mode_busy.mpr hb)) hcur) (hprev rfl cur hcur)
  have hterm : (a.entry saved hw cur).core.terminate walkFuel cur =
      some (c.killAll vs t).dispatch := by
    rw [hcore, Core.terminate, hwalk]
    rfl
  have hret : Reaches (terminateProcess walkFuel hw (a.entry saved hw cur) cur) _ :=
    terminateProcess_core hk.queues.wf hterm
  obtain ⟨a', ha', -⟩ := hret
  have hstep : step walkFuel a (.exception saved hw) = some a' :=
    (step_terminate (k := a) hb hkcur hcall).trans ha'
  exact hk.returns hstep

end

/-! ## The partition -/

open Intrusive

/-- Every PCB has exactly one place: the free ring, the ready queue, the
queue of one active descriptor, or the processor. -/
structure Partitioned (k : Kernel Queues) : Prop where
  once : (k.q.freeList ++ k.q.readyList ++ k.q.blockedList ++ k.running.toList).Perm
    (List.finRange maxProc)
  freeRing : k.q.pcbFreeH = k.q.freeList.head? ∧ IsCycle k.q.links k.q.freeList
  readyRing : IsRing k.q.links k.q.readyQueue k.q.readyList
  blockedRings : ∀ d ∈ k.q.activeSemds, IsRing k.q.links (k.q.sProcQ d) (k.q.procQ d) ∧
    ∀ p ∈ k.q.procQ d, k.q.pSemAdd p = k.q.sSemAdd d
  semAdd : ∀ p, k.q.pSemAdd p ≠ 0 ↔ p ∈ k.q.blockedList
  count : k.processCount = maxProc - k.q.freeList.length

theorem QRep.blockedList_nodup {q : Queues} {f : Fifos} (h : QRep q f) : q.blockedList.Nodup := by
  obtain ⟨act, unused, hasl⟩ := h.asl
  refine List.nodup_flatMap.mpr ⟨fun d hd => ?_, ?_⟩
  · rw [(h.procQ_eq hd).2.1]
    exact h.wf.blocked_nodup _
  · have hact := hasl.active.activeSemds_eq
    rw [hact]
    refine hasl.active.nodup.imp_of_mem ?_
    intro d d' hd hd' hne p hp hp'
    rw [(h.procQ_eq (hact ▸ hd)).2.1] at hp
    rw [(h.procQ_eq (hact ▸ hd')).2.1] at hp'
    refine hne (hasl.active.addr_inj hd hd' ?_)
    exact ((h.wf.mem_blocked p _).mp hp).1.symm.trans ((h.wf.mem_blocked p _).mp hp').1

section

variable {k : Kernel Queues} {c : Core}

theorem Core.Tidy.partitioned (h : c.Tidy) (hk : Rep k c) (hp : k.cpu ≠ .panicked) :
    Partitioned k := by
  have hq := hk.queues
  have hwf := h.inv.wf
  have hm : c.mode ≠ .panicked := by
    rw [hk.mode, Ne, Cpu.mode_eq_panicked]
    exact hp
  have hfree := hq.freeList_eq
  have hready := hq.readyList_eq
  refine ⟨?_, ?_, ?_, ?_, ?_, ?_⟩
  · rw [hfree, hready, hk.running]
    refine (List.perm_ext_iff_of_nodup ?_ (List.nodup_finRange _)).mpr fun p => ?_
    · refine List.nodup_append.mpr ⟨List.nodup_append.mpr ⟨List.nodup_append.mpr
        ⟨hwf.free_nodup, hwf.ready_nodup, ?_⟩, hq.blockedList_nodup, ?_⟩, ?_, ?_⟩
      · exact fun a ha b hb e => hwf.disjoint ha (e ▸ hb)
      · rintro a ha b hb rfl
        have hs := (hq.mem_blockedList a).mp hb
        rcases List.mem_append.mp ha with ha | ha
        · exact hs (hwf.pSemAdd_free a ha)
        · exact hs (hwf.pSemAdd_ready a ha)
      · cases c.running <;> simp
      · rintro a ha b hb rfl
        obtain ⟨hdf, hdr, hds⟩ := h.inv.running_detached (Option.mem_toList.mp hb)
        rcases List.mem_append.mp ha with ha | ha
        · rcases List.mem_append.mp ha with ha | ha
          · exact hdf ha
          · exact hdr ha
        · exact (hq.mem_blockedList a).mp ha hds
    · refine iff_of_true ?_ (List.mem_finRange p)
      simp only [List.mem_append, Option.mem_toList, hq.mem_blockedList]
      by_cases hpf : p ∈ c.q.free
      · exact .inl (.inl (.inl hpf))
      · rcases h.live hm p hpf with hr | hs | hrun
        · exact .inl (.inl (.inr hr))
        · exact .inl (.inr hs)
        · exact .inr hrun
  · rw [hfree]
    exact ⟨hq.free.queue.head_eq, hq.free.cycle h.dup⟩
  · rw [hready]
    exact hq.ready
  · intro d hd
    obtain ⟨hring, heq, -⟩ := hq.procQ_eq hd
    rw [heq]
    refine ⟨hring, fun p hp => ?_⟩
    rw [hq.pSemAdd]
    exact ((hwf.mem_blocked p _).mp hp).1
  · intro p
    rw [hq.mem_blockedList, hq.pSemAdd]
  · rw [hfree, ← hk.processCount]
    exact h.count

/-- All PCBs are live if none is free. -/
theorem Core.Tidy.free_nil_iff (h : c.Tidy) (hk : Rep k c) (hp : k.cpu ≠ .panicked) :
    k.q.pcbFreeH = none ↔ ∀ p, k.Live p := by
  have hm : c.mode ≠ .panicked := by
    rw [hk.mode, Ne, Cpu.mode_eq_panicked]
    exact hp
  rw [hk.queues.free.queue.head_eq, List.head?_eq_none_iff]
  constructor
  · intro hnil p
    exact (hk.live_iff p).mpr (h.live hm p (by simp [hnil]))
  · intro hall
    refine List.eq_nil_iff_forall_not_mem.mpr fun p hpf => ?_
    exact Core.mem_liveSet.mp (h.mem_liveSet_of_live ((hk.live_iff p).mp (hall p))) hpf

end

/-! ## Runs -/

/-- At a termination, the back link of the process that ends is right. -/
def Trans.BackLinked (x : Trans Queues) : Prop :=
  x.action = .terminate → ∀ p, x.before.currentProcess = some p → PrevAgrees x.before.tree p

instance (t : Tree) (p : PcbPtr) : Decidable (PrevAgrees t p) :=
  inferInstanceAs (Decidable (∀ _, _))

instance (x : Trans Queues) : Decidable x.BackLinked := inferInstanceAs (Decidable (_ → ∀ _, _))

theorem Rep.backLinked {k k' : Kernel Queues} {c : Core} {e : Event} (hc : Rep k c)
    (hback : (⟨k, e, k'⟩ : Trans Queues).BackLinked) : c.BackLinked (action k.toShared e) := by
  intro hact p hp
  rw [hc.tree]
  exact hback hact p (hc.current.symm.trans hp)

theorem Run.tidy {k₀ k : Kernel Queues} {tr : List (Trans Queues)} (h₀ : Boot k₀)
    (h : Run k₀ tr k) (hb : ∀ x ∈ tr, x.BackLinked) : ∃ c, Rep k c ∧ c.Tidy := by
  obtain ⟨m, hrep⟩ := h₀.rep
  refine h.invariant (P := fun _ c => c.Tidy) hb ⟨_, hrep, Core.bootCore_tidy m⟩ ?_
  intro tr k e k' c d fuel hc hd hnext hback htidy
  exact Core.next_tidy htidy (hc.backLinked hback) hnext

/-- In every run in which each process that ends has its back link right, the
PCBs stay partitioned, and `CREATEPROCESS` returns, with `-1` if all of them
are live. -/
theorem partitioned_of_backLinked {k₀ k : Kernel Queues} {tr : List (Trans Queues)}
    (h₀ : Boot k₀) (h : Run k₀ tr k) (hb : ∀ x ∈ tr, x.BackLinked) (hp : k.cpu ≠ .panicked) :
    Partitioned k ∧ ∀ saved hw, k.cpu.busy → Calls saved createProcess →
      accessible saved.regA1 → (∃ k', Step k (.exception saved hw) k') ∧
        ∀ k', Step k (.exception saved hw) k' →
          ∃ s, k'.cpu = .running s ∧ (s.regV0 = -1 ↔ ∀ p, k.Live p) := by
  obtain ⟨c, hc, htidy⟩ := Run.tidy h₀ h hb
  refine ⟨htidy.partitioned hc hp, fun saved hw hbusy hcall hacc => ⟨?_, ?_⟩⟩
  · exact htidy.create_returns hc hbusy hcall hacc hw
  · rintro k' ⟨fuel, hstep⟩
    obtain ⟨cur, -, hcur, -⟩ := hc.exists_current hbusy
    rw [step_create hbusy hcur hcall] at hstep
    obtain ⟨s, hs, hv⟩ := createProcessCall_result hstep
    refine ⟨s, hs, ?_⟩
    rw [← htidy.free_nil_iff hc hp, hv]
    show (if k.q.pcbFreeH = none then (-1 : Word) else 0) = -1 ↔ _
    split <;> simp_all

/-- Of two children, the second ends, and then the first. -/
def tidyScript : List Event :=
  [callCreate, callCreate, pltTick, pltTick, callTerm, pltTick, callTerm]

theorem partitioned_tidyScript : ∃ k₀ tr k, Boot k₀ ∧ Run k₀ tr k ∧
    (∀ x ∈ tr, x.BackLinked) ∧ k.q.freeList.length = 39 ∧ Partitioned k := by
  have hany : (Script.eval walkFuel .zero .zero tidyScript).any (fun x =>
      x.trace.all (fun y => y.BackLinked) ∧ x.final.cpu.busy ∧
        x.final.q.freeList.length = 39) = true := by
    decide +kernel
  obtain ⟨x, hx, h⟩ := Script.exists_of_any hany
  obtain ⟨hall, hbusy, hlen⟩ := of_decide_eq_true h
  obtain ⟨hboot, hrun, -⟩ := Script.run hx
  have hb : ∀ y ∈ x.trace, y.BackLinked := fun y hy =>
    of_decide_eq_true (List.all_eq_true.mp hall y hy)
  have hp : x.final.cpu ≠ .panicked := fun e => by simp [e, Cpu.busy] at hbusy
  exact ⟨x.start, x.trace, x.final, hboot, hrun, hb, hlen,
    (partitioned_of_backLinked hboot hrun hb hp).1⟩

/-- A process with three children ends after the second and the third have
ended, in this order. -/
def staleScript : List Event :=
  [callCreate, pltTick, callCreate, callCreate, callCreate, pltTick, pltTick, pltTick,
    callTerm, callTerm, callTerm]

/-- The third child is freed a second time, which cuts the first child off the
free ring, and no process is counted although one runs. -/
theorem not_partitioned_staleScript : ∃ k, Reachable k ∧ k.running = some 0 ∧
    k.processCount = 0 ∧ k.q.freeList.length = 38 ∧ ¬ Partitioned k := by
  have hany : (Script.eval walkFuel .zero .zero staleScript).any (fun x =>
      x.final.running = some 0 ∧ x.final.processCount = 0 ∧
        x.final.q.freeList.length = 38) = true := by
    decide +kernel
  obtain ⟨x, hx, h⟩ := Script.exists_of_any hany
  obtain ⟨hrun, hcount, hlen⟩ := of_decide_eq_true h
  obtain ⟨hboot, htr, -⟩ := Script.run hx
  refine ⟨x.final, ⟨_, _, hboot, htr⟩, hrun, hcount, hlen, fun hp => ?_⟩
  have := hp.count
  rw [hcount, hlen] at this
  exact absurd this (by decide)

end Pandos
