/-
# `Pandos.Descent` — who dies with a process

`History` numbers the processes in the order of their creation and remembers
who has created each of them, independently of the tree the nucleus keeps.

As long as every process that ends can be taken out of the tree properly
(`CleanEnd`), the tree says the same as the history about the live processes
(`Core.Genealogy`), and `TERMPROCESS` kills the process that has called it
and its descendants (`dies_iff_descends`).  A first child with a sibling
cannot: `outChild` makes `p_prev_sib` the first child of the parent, which is
`NULL`, and the siblings survive their parent (`survives_orphanScript`).
-/
import Pandos.Ownership

namespace Pandos

open Simulation

/-! ## The history of creations -/

/-- The processes are numbered in the order of their creation: `pid` is the
number of the last one each PCB has been given to. -/
structure History where
  pid : PcbPtr → Nat
  creator : Nat → Option Nat
  next : Nat

namespace History

/-- After boot there is one process. -/
def start : History := ⟨fun _ => 0, fun _ => none, 1⟩

/-- `CREATEPROCESS` gives the head of the free ring to a new process. -/
def after (h : History) (x : Trans Queues) : History :=
  if x.action = .createProcess then
    match x.before.currentProcess, x.before.q.pcbFreeH with
    | some cur, some tmp =>
        ⟨Function.update h.pid tmp h.next, Function.update h.creator h.next (some (h.pid cur)),
          h.next + 1⟩
    | _, _ => h
  else h

/-- `n` was created by `m`, or by a descendant of `m`. -/
def Descends (h : History) (n m : Nat) : Prop :=
  Relation.TransGen (fun a b => h.creator a = some b) n m

theorem descends_iff {h : History} {n m a : Nat} (hn : h.creator n = some a) :
    h.Descends n m ↔ a = m ∨ h.Descends a m := by
  unfold Descends
  rw [Relation.TransGen.head'_iff]
  constructor
  · rintro ⟨b, hb, hr⟩
    obtain rfl := Option.some.inj (hn.symm.trans hb)
    rcases Relation.reflTransGen_iff_eq_or_transGen.mp hr with rfl | ht
    · exact .inl rfl
    · exact .inr ht
  · rintro (rfl | ht)
    · exact ⟨a, hn, .refl⟩
    · exact ⟨a, hn, ht.to_reflTransGen⟩

theorem not_descends {h : History} {n m : Nat} (hn : h.creator n = none) : ¬ h.Descends n m := by
  intro hd
  obtain ⟨a, ha, -⟩ := Relation.TransGen.head'_iff.mp hd
  exact absurd (hn.symm.trans ha) nofun

end History

def history (tr : List (Trans Queues)) : History := tr.foldl History.after .start

@[simp] theorem history_concat (tr : List (Trans Queues)) (x : Trans Queues) :
    history (tr ++ [x]) = (history tr).after x := by simp [history]

namespace Core

variable {c c' : Core} {h : History} {p x : PcbPtr}

/-- The live processes have numbers of their own. -/
structure Numbered (h : History) (c : Core) : Prop where
  fresh : ∀ x ∈ c.liveSet, h.pid x < h.next
  inj : ∀ x ∈ c.liveSet, ∀ y ∈ c.liveSet, h.pid x = h.pid y → x = y

/-- The tree is the history of the live processes. -/
structure Genealogy (h : History) (c : Core) : Prop extends Numbered h c where
  exact : c.tree.Exact c.liveSet
  creator : ∀ x ∈ c.liveSet, h.creator (h.pid x) = (c.tree.pPrnt x).map h.pid

theorem Kept.liveSet_eq (hk : Kept c c') : c'.liveSet = c.liveSet := by
  rw [liveSet, liveSet, hk.free]

namespace Numbered

theorem sub (hn : Numbered h c) (hsub : c'.liveSet ⊆ c.liveSet) : Numbered h c' where
  fresh x hx := hn.fresh x (hsub hx)
  inj x hx y hy := hn.inj x (hsub hx) y (hsub hy)

/-- A new process. -/
theorem created (hn : Numbered h c) {tmp : PcbPtr} (hset : c'.liveSet = insert tmp c.liveSet)
    (htmp : tmp ∉ c.liveSet) (creator : Nat → Option Nat) :
    Numbered ⟨Function.update h.pid tmp h.next, creator, h.next + 1⟩ c' := by
  have hne : ∀ {x}, x ∈ c.liveSet → x ≠ tmp := fun hx e => htmp (e ▸ hx)
  have hpid : ∀ {x}, x ∈ c.liveSet → Function.update h.pid tmp h.next x = h.pid x := fun hx =>
    Function.update_of_ne (hne hx) _ _
  constructor
  case fresh =>
    intro x hx
    rw [hset] at hx
    rcases Finset.mem_insert.mp hx with rfl | hx
    · simp
    · have := hn.fresh x hx
      simp only [hpid hx]
      omega
  case inj =>
    intro x hx y hy hxy
    rw [hset] at hx hy
    dsimp only at hxy
    rcases Finset.mem_insert.mp hx with rfl | hx'
    · rcases Finset.mem_insert.mp hy with rfl | hy'
      · rfl
      · rw [hpid hy', Function.update_self] at hxy
        exact absurd (hn.fresh y hy') (by omega)
    · rcases Finset.mem_insert.mp hy with rfl | hy'
      · rw [hpid hx', Function.update_self] at hxy
        exact absurd (hn.fresh x hx') (by omega)
      · rw [hpid hx', hpid hy'] at hxy
        exact hn.inj x hx' y hy' hxy

end Numbered

namespace Genealogy

theorem kept (hg : Genealogy h c) (hk : Kept c c') : Genealogy h c' where
  toNumbered := hg.toNumbered.sub hk.liveSet_eq.subset
  exact := by rw [hk.liveSet_eq, hk.tree]; exact hg.exact
  creator := by rw [hk.liveSet_eq, hk.tree]; exact hg.creator

/-- Among the live, descent is the way up in the tree. -/
theorem descends_iff (hg : Genealogy h c) (hx : x ∈ c.liveSet) (hp : p ∈ c.liveSet) :
    h.Descends (h.pid x) (h.pid p) ↔ c.tree.Below x p := by
  constructor
  · intro hd
    generalize hn : h.pid x = n at hd
    induction hd using Relation.TransGen.head_induction_on generalizing x with
    | single hd =>
        rw [← hn, hg.creator x hx] at hd
        obtain ⟨y, hxy, hy⟩ := Option.map_eq_some_iff.mp hd
        obtain rfl := hg.inj y (hg.exact x hx y hxy).1 p hp hy
        exact .single hxy
    | head hd _ ih =>
        rw [← hn, hg.creator x hx] at hd
        obtain ⟨y, hxy, hy⟩ := Option.map_eq_some_iff.mp hd
        exact .head hxy (ih (hg.exact x hx y hxy).1 hy)
  · intro hb
    induction hb using Relation.TransGen.head_induction_on with
    | single hxp => exact .single (by rw [hg.creator _ hx, hxp]; rfl)
    | head hxy _ ih =>
        exact .head (by rw [hg.creator _ hx, hxy]; rfl) (ih (hg.exact _ hx _ hxy).1)

/-- A new process. -/
theorem created (hg : Genealogy h c) {cur tmp : PcbPtr}
    (hcur : cur ∈ c.liveSet) (hset : c'.liveSet = insert tmp c.liveSet) (htmp : tmp ∉ c.liveSet)
    (hk : c.tree.Hook c'.tree c.liveSet cur tmp) :
    Genealogy ⟨Function.update h.pid tmp h.next,
      Function.update h.creator h.next (some (h.pid cur)), h.next + 1⟩ c' := by
  have hne : ∀ {x}, x ∈ c.liveSet → x ≠ tmp := fun hx e => htmp (e ▸ hx)
  have hpid : ∀ {x}, x ∈ c.liveSet → Function.update h.pid tmp h.next x = h.pid x := fun hx =>
    Function.update_of_ne (hne hx) _ _
  refine ⟨hg.toNumbered.created hset htmp _, ?_, ?_⟩
  case refine_1 =>
    rw [hset]
    exact hg.exact.hook hk hcur
  case refine_2 =>
    intro x hx
    rw [hset] at hx
    dsimp only
    rcases Finset.mem_insert.mp hx with rfl | hx
    · rw [Function.update_self, Function.update_self, hk.prnt_self, Option.map_some, hpid hcur]
    · have hlt : h.pid x ≠ h.next := (hg.fresh x hx).ne
      rw [hpid hx, Function.update_of_ne hlt, hg.creator x hx, hk.prnt_keep (hne hx)]
      cases hprnt : c.tree.pPrnt x with
      | none => rfl
      | some y => simp only [Option.map_some, hpid (hg.exact x hx y hprnt).1]

/-- A termination. -/
theorem terminated (hg : Genealogy h c) {vs : List PcbPtr} {age : PcbPtr → Nat}
    (hk : c.tree.Killed c'.tree c.liveSet age p vs) (hset : c'.liveSet = c.liveSet \ vs.toFinset)
    (hfirst : ∀ x, c.tree.pChild x = some p → c.tree.pNextSib p = none) : Genealogy h c' where
  toNumbered := hg.toNumbered.sub (hset ▸ Finset.sdiff_subset)
  exact := by rw [hset]; exact hk.exact hg.exact hfirst
  creator x hx := by
    rw [hset, Finset.mem_sdiff, List.mem_toFinset] at hx
    rw [hk.prnt hx.2]
    exact hg.creator x hx.1

end Genealogy

/-- Who dies in a termination. -/
theorem Tidy.dies_iff (h : Tidy c) (hm : c.mode = .busy ∨ c.mode = .waiting) {cur : PcbPtr}
    {vs : List PcbPtr} {t : Tree} {age : PcbPtr → Nat} (hcur : c.current = some cur)
    (hk : c.tree.Killed t c.liveSet age cur vs) (hx : x ∈ c.liveSet) :
    ¬ (c.killAll vs t).dispatch.Live x ↔ x ∈ vs := by
  constructor
  · intro hdead
    by_contra hvs
    refine hdead (dispatch_live ((killAll_placed vs (c := { c with tree := t }) hvs).mpr ?_))
    refine (h.placed hm (mem_liveSet.mp hx)).resolve_right fun hxc => ?_
    exact hvs (Option.some.inj (hcur.symm.trans hxc) ▸ hk.self)
  · intro hvs
    obtain ⟨hr, hs⟩ := killAll_dead vs (c := { c with tree := t }) h.inv.wf (.inl hvs)
    exact dispatch_dead hr hs

end Core

/-! ## Runs -/

/-- `p` can be taken out of the tree: its back link is right, and it is no
first child with a sibling. -/
structure CleanEnd (t : Tree) (p : PcbPtr) : Prop where
  prev : PrevAgrees t p
  first : ∀ x, t.pChild x = some p → t.pNextSib p = none

instance (t : Tree) (p : PcbPtr) : Decidable (CleanEnd t p) :=
  decidable_of_iff (PrevAgrees t p ∧ ∀ x, t.pChild x = some p → t.pNextSib p = none)
    ⟨fun h => ⟨h.1, h.2⟩, fun h => ⟨h.1, h.2⟩⟩

/-- The process that ends, if one does, can be taken out. -/
def Trans.CleanEnd (x : Trans Queues) : Prop :=
  x.action = .terminate → ∀ p, x.before.currentProcess = some p → Pandos.CleanEnd x.before.tree p

instance (x : Trans Queues) : Decidable x.CleanEnd := inferInstanceAs (Decidable (_ → ∀ _, _))

/-- What an action does to the live processes and to their history. -/
inductive HistoryMove (act : Action) (h : History) (c : Core) (h' : History) (d : Core) :
    Prop where
  | kept (hh : h' = h) (hk : Core.Kept c d)
  | created {cur tmp : PcbPtr} (hact : act = .createProcess) (hcur : cur ∈ c.liveSet)
      (htmp : tmp ∉ c.liveSet) (hset : d.liveSet = insert tmp c.liveSet)
      (hk : c.tree.Hook d.tree c.liveSet cur tmp)
      (hh : h' = ⟨Function.update h.pid tmp h.next,
        Function.update h.creator h.next (some (h.pid cur)), h.next + 1⟩)
  | terminated {cur : PcbPtr} {vs : List PcbPtr} {age : PcbPtr → Nat} (hact : act = .terminate)
      (hcur : c.current = some cur) (hh : h' = h) (hset : d.liveSet = c.liveSet \ vs.toFinset)
      (hk : c.tree.Killed d.tree c.liveSet age cur vs)

theorem Rep.historyMove {tr : List (Trans Queues)} {k k' : Kernel Queues} {c d : Core} {e : Event}
    {fuel : Nat} (hc : Rep k c) (htidy : c.Tidy)
    (hnext : c.next fuel (action k.toShared e) = some d)
    (hback : c.BackLinked (action k.toShared e)) :
    HistoryMove (action k.toShared e) (history tr) c (history (tr ++ [⟨k, e, k'⟩])) d := by
  obtain ⟨hm, hout⟩ := Core.next_outcome hnext
  have hwf := htidy.inv.wf
  have hsame : action k.toShared e ≠ .createProcess →
      history (tr ++ [⟨k, e, k'⟩]) = history tr := fun hact => by
    rw [history_concat]
    exact if_neg hact
  generalize hact : action k.toShared e = act at hout hsame hback
  have hout' := hout
  have haction : (⟨k, e, k'⟩ : Trans Queues).action = act := hact
  cases hout with
  | @full cur hcur hf =>
      have hnone : k.q.pcbFreeH = none := by
        rw [hc.queues.free.queue.head_eq, hf]
        rfl
      refine .kept ?_ ((Core.Kept.refl c).run cur)
      simp only [history_concat, History.after, haction, if_true, hnone]
      split <;> simp_all
  | @created cur tmp l t hcur hf ht =>
      have hhead : k.q.pcbFreeH = some tmp := by
        rw [hc.queues.free.queue.head_eq, hf]
        rfl
      have hkcur : k.currentProcess = some cur := hc.current.symm.trans hcur
      have hlive := htidy.current_live hm hcur
      have hnot : tmp ∉ c.liveSet := by simp [Core.mem_liveSet, hf]
      obtain ⟨age, hok⟩ := htidy.tree
      refine .created rfl hlive hnot (Core.created_liveSet hwf hf)
        (insertChild_hook hok hlive hnot ht) ?_
      simp only [history_concat, History.after, haction, if_true, hkcur, hhead]
  | @terminated cur vs t hcur hw =>
      obtain ⟨age, hok⟩ := htidy.tree
      have hk := htidy.killed hm hcur (hback rfl cur hcur) hw hok
      have htree : (c.killAll vs t).dispatch.tree = t := by
        rw [((Core.Kept.refl (c.killAll vs t)).dispatch).tree, Core.killAll_tree]
      exact .terminated rfl hcur (hsame nofun) (htidy.terminated_liveSet hk) (htree ▸ hk)
  | _ => exact .kept (hsame nofun) (hout'.kept hwf nofun nofun)

/-- What is known in a run of clean terminations. -/
structure CleanRep (tr : List (Trans Queues)) (k : Kernel Queues) (c : Core) : Prop where
  rep : Rep k c
  tidy : c.Tidy
  genealogy : c.Genealogy (history tr)

theorem CleanRep.step {tr : List (Trans Queues)} {k k' : Kernel Queues} {c d : Core} {e : Event}
    {fuel : Nat} (h : CleanRep tr k c) (hd : Rep k' d)
    (hnext : c.next fuel (action k.toShared e) = some d)
    (hclean : (⟨k, e, k'⟩ : Trans Queues).CleanEnd) : CleanRep (tr ++ [⟨k, e, k'⟩]) k' d := by
  have hend : ∀ p, action k.toShared e = .terminate → c.current = some p → CleanEnd c.tree p := by
    intro p hact hp
    rw [h.rep.tree]
    exact hclean hact p (h.rep.current.symm.trans hp)
  have hback : c.BackLinked (action k.toShared e) := fun hact p hp => (hend p hact hp).prev
  refine ⟨hd, Core.next_tidy h.tidy hback hnext, ?_⟩
  have hmove : HistoryMove (action k.toShared e) (history tr) c (history (tr ++ [⟨k, e, k'⟩])) d :=
    h.rep.historyMove h.tidy hnext hback
  cases hmove with
  | kept hh hk => exact hh ▸ h.genealogy.kept hk
  | created _ hcur htmp hset hk hh => exact hh ▸ h.genealogy.created hcur hset htmp hk
  | terminated hact hcur hh hset hk =>
      exact hh ▸ h.genealogy.terminated hk hset (hend _ hact hcur).first

theorem Core.bootCore_genealogy (m : Memory) : (bootCore m).Genealogy .start := by
  have hone : ∀ x ∈ (bootCore m).liveSet, x = 0 := by
    intro x hx
    by_contra hne
    refine Core.mem_liveSet.mp hx ?_
    have := List.mem_finRange x
    rw [List.finRange_succ, List.mem_cons] at this
    exact this.resolve_left hne
  refine ⟨⟨fun _ _ => Nat.zero_lt_one, ?_⟩, fun _ _ _ => nofun, fun _ _ => rfl⟩
  exact fun x hx y hy _ => (hone x hx).trans (hone y hy).symm

theorem Run.cleanRep {k₀ k : Kernel Queues} {tr : List (Trans Queues)} (h₀ : Boot k₀)
    (h : Run k₀ tr k) (hc : ∀ x ∈ tr, x.CleanEnd) : ∃ c, CleanRep tr k c := by
  induction h with
  | nil =>
      obtain ⟨m, hrep⟩ := h₀.rep
      exact ⟨_, hrep, Core.bootCore_tidy m, Core.bootCore_genealogy m⟩
  | @snoc tr k e k' _ hstep ih =>
      obtain ⟨c, hrep⟩ := ih fun x hx => hc x (List.mem_append_left _ hx)
      obtain ⟨fuel, d, hnext, hd⟩ := hrep.rep.step hstep
      have hlast := hc _ (List.mem_append_right _ (List.mem_singleton_self _))
      exact ⟨d, hrep.step hd hnext hlast⟩

theorem CleanRep.dies_iff {tr : List (Trans Queues)} {k k' : Kernel Queues} {c : Core} {e : Event}
    {p x : PcbPtr} (h : CleanRep tr k c) (hstep : Step k e k')
    (hact : action k.toShared e = .terminate) (hp : k.currentProcess = some p)
    (hend : CleanEnd k.tree p) (hx : k.Live x) :
    ¬ k'.Live x ↔ x = p ∨ (history tr).Descends ((history tr).pid x) ((history tr).pid p) := by
  obtain ⟨fuel, d, hnext, hd⟩ := h.rep.step hstep
  rw [hact] at hnext
  obtain ⟨hm, hout⟩ := Core.next_outcome hnext
  obtain ⟨age, hok⟩ := h.tidy.tree
  rw [← h.rep.current] at hp
  rw [← h.rep.tree] at hend
  have hlive := h.tidy.current_live hm hp
  have hxlive : x ∈ c.liveSet := h.tidy.mem_liveSet_of_live ((h.rep.live_iff x).mp hx)
  cases hout with
  | @terminated cur vs t hcur hw =>
      obtain rfl : p = cur := Option.some.inj (hp.symm.trans hcur)
      have hk := h.tidy.killed hm hcur hend.prev hw hok
      have hexact := hk.exact h.genealogy.exact hend.first
      rw [hd.live_iff, h.tidy.dies_iff hm hcur hk hxlive,
        hk.mem_iff h.genealogy.exact hexact, h.genealogy.descends_iff hxlive hlive]
      exact ⟨fun hh => hh.2, fun hh => ⟨hxlive, hh⟩⟩

/-- In every run of clean terminations, `TERMPROCESS` returns, and those who
die are the process that has called it and its descendants. -/
theorem dies_iff_descends {k₀ k : Kernel Queues} {tr : List (Trans Queues)} (h₀ : Boot k₀)
    (h : Run k₀ tr k) (hc : ∀ x ∈ tr, x.CleanEnd) {p : PcbPtr} (hp : k.currentProcess = some p)
    (hend : CleanEnd k.tree p) :
    (∀ saved hw, k.cpu.busy → Calls saved termProcess →
        ∃ k', Step k (.exception saved hw) k') ∧
      ∀ e k', Step k e k' → action k.toShared e = .terminate → ∀ x, k.Live x →
        (¬ k'.Live x ↔
          x = p ∨ (history tr).Descends ((history tr).pid x) ((history tr).pid p)) := by
  obtain ⟨c, hrep⟩ := Run.cleanRep h₀ h hc
  refine ⟨fun saved hw hbusy hcall => ?_, fun e k' hstep hact x hx => ?_⟩
  · refine hrep.tidy.terminate_returns hrep.rep hbusy hcall (fun _ q hq => ?_) hw
    rw [hrep.rep.tree]
    obtain rfl : p = q := Option.some.inj (hp.symm.trans (hrep.rep.current.symm.trans hq))
    exact hend.prev
  · exact hrep.dies_iff hstep hact hp hend hx

theorem calls_term : Calls (callState termProcess 0 0 0) termProcess := ⟨by decide, by decide, rfl⟩

/-- The first process has a child, which has two; the second of them has ended. -/
def cleanScript : List Event :=
  [callCreate, pltTick, callCreate, callCreate, pltTick, pltTick, pltTick, callTerm]

/-- When the child ends now, so does the grandchild. -/
theorem dies_iff_descends_cleanScript : ∃ k₀ tr k k', Boot k₀ ∧ Run k₀ tr k ∧
    (∀ x ∈ tr, x.CleanEnd) ∧ k.currentProcess = some 1 ∧ Step k callTerm k' ∧ k.Live 2 ∧
      ¬ k'.Live 2 := by
  have hany : (Script.eval walkFuel .zero .zero cleanScript).any (fun x =>
      x.trace.all (fun y => y.CleanEnd) ∧ x.final.cpu.busy ∧
        x.final.currentProcess = some 1 ∧ CleanEnd x.final.tree 1 ∧ x.final.Live 2 ∧
        action x.final.toShared callTerm = .terminate ∧
        (history x.trace).creator ((history x.trace).pid 2) = some ((history x.trace).pid 1)) =
      true := by
    decide +kernel
  obtain ⟨x, hx, h⟩ := Script.exists_of_any hany
  obtain ⟨hall, hbusy, hcur, hend, hlive, hact, hdesc⟩ := of_decide_eq_true h
  obtain ⟨hboot, hrun, -⟩ := Script.run hx
  have hclean : ∀ y ∈ x.trace, y.CleanEnd := fun y hy =>
    of_decide_eq_true (List.all_eq_true.mp hall y hy)
  obtain ⟨hret, hdies⟩ := dies_iff_descends hboot hrun hclean hcur hend
  obtain ⟨k', hstep⟩ := hret _ .zero hbusy calls_term
  exact ⟨x.start, x.trace, x.final, k', hboot, hrun, hclean, hcur, hstep, hlive,
    (hdies _ k' hstep hact 2 hlive).mpr (.inr (.single hdesc))⟩

/-- The first process has had two children, of which the first has ended. -/
def orphanScript : List Event := [callCreate, callCreate, pltTick, callTerm, pltTick]

/-- When the first process ends now, its other child survives. -/
theorem survives_orphanScript : ∃ k₀ tr k k', Boot k₀ ∧ Run k₀ tr k ∧
    k.currentProcess = some 0 ∧ Step k callTerm k' ∧
      action k.toShared callTerm = .terminate ∧ k.Live 2 ∧
      (history tr).Descends ((history tr).pid 2) ((history tr).pid 0) ∧ k'.Live 2 := by
  have hany : (Script.eval walkFuel .zero .zero orphanScript).any (fun x =>
      (step walkFuel x.final callTerm).any (fun k' => k'.Live 2) ∧
        x.final.currentProcess = some 0 ∧ x.final.Live 2 ∧
        action x.final.toShared callTerm = .terminate ∧
        (history x.trace).creator ((history x.trace).pid 2) = some ((history x.trace).pid 0)) =
      true := by
    decide +kernel
  obtain ⟨x, hx, h⟩ := Script.exists_of_any hany
  obtain ⟨hnext, hcur, hlive, hact, hdesc⟩ := of_decide_eq_true h
  obtain ⟨hboot, hrun, -⟩ := Script.run hx
  cases hk' : step walkFuel x.final callTerm with
  | none => rw [hk'] at hnext; exact nomatch hnext
  | some k' =>
      rw [hk'] at hnext
      exact ⟨x.start, x.trace, x.final, k', hboot, hrun, hcur, ⟨walkFuel, hk'⟩, hact, hlive,
        .single hdesc, of_decide_eq_true hnext⟩

end Pandos
