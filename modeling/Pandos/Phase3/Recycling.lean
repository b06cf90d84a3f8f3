/-
# `Pandos.Phase3.Recycling` — the frames of a U-proc that has ended

`terminate_support` puts the support structure back on the stack and leaves the
swap table as it is.  If at that point no frame holds a page of the structure,
then no frame ever refers to a structure on the stack, and what a frame holds
was loaded by the U-proc that has the structure now (`free_unreferenced`).
-/
import Pandos.Phase3.Tables

namespace Pandos.Phase3

/-! ## Free structures -/

namespace Pool

/-- `s` is on the stack. -/
def Free (p : Pool) (s : SuppPtr) : Prop := ∃ l, p.IsStack l ∧ s ∈ l

theorem Down.unique {p : Pool} {l : List SuppPtr} : ∀ {above s : Option SuppPtr}
    {l' : List SuppPtr}, p.Down above s l → p.Down above s l' → l = l' := by
  induction l with
  | nil =>
      rintro above s (_ | ⟨y, l'⟩) h h'
      · rfl
      · exact nomatch (show s = none from h).symm.trans h'.1
  | cons x l ih =>
      rintro above s (_ | ⟨y, l'⟩) h h'
      · exact nomatch (show s = none from h').symm.trans h.1
      · obtain rfl : x = y := Option.some.inj (h.1.symm.trans h'.1)
        rw [ih h.2.2 h'.2.2]

theorem IsStack.free_iff {p : Pool} {l : List SuppPtr} (h : p.IsStack l) {s : SuppPtr} :
    p.Free s ↔ s ∈ l := by
  constructor
  · rintro ⟨l', h', hs⟩
    rwa [h.down.unique h'.down]
  · exact fun hs => ⟨l, h, hs⟩

theorem IsStack.free_top {p : Pool} {l : List SuppPtr} (h : p.IsStack l) {s : SuppPtr}
    (hs : p.freeSuppTp = some s) : p.Free s :=
  ⟨l, h, List.mem_of_head? (h.freeSuppTp.symm.trans hs)⟩

end Pool

/-- No occupied frame holds a page of `s`. -/
def Vm.Unreferenced (vm : Vm) (s : SuppPtr) : Prop :=
  ∀ i q, frameIsOccupied (vm.swapTable i) = true → (vm.swapTable i).swPte = some q → q.1 ≠ s

/-- A U-proc that ends leaves no page of its own in a frame. -/
def Vacates (x : Entry) : Prop :=
  ∀ p u, x.event = .next p → x.before.proc p = some u → u.phase = .terminating →
    x.before.vm.Unreferenced u.supp

/-! ## What has been loaded -/

/-- The step records that the frame `i` holds the page `q` of its U-proc. -/
def Fills (x : Entry) (i : Fin poolSize) (q : PtePtr) : Prop :=
  ∃ p u, x.event = .next p ∧ x.before.proc p = some u ∧ u.supp = q.1 ∧
    u.phase = .paging q i .loaded

/-- The step gives `s` to a new U-proc. -/
def HandsOut (x : Entry) (s : SuppPtr) : Prop :=
  ∃ p u, x.before.proc p = none ∧ x.after.proc p = some u ∧ u.supp = s

/-- The frame `i` has been filled with `q` since the structure of `q` was last handed out. -/
def FilledSince (tr : List Entry) (i : Fin poolSize) (q : PtePtr) : Prop :=
  ∃ tr₁ x tr₂, tr = tr₁ ++ x :: tr₂ ∧ Fills x i q ∧ ∀ y ∈ tr₂, ¬ HandsOut y q.1

theorem FilledSince.last {tr : List Entry} {x : Entry} {i : Fin poolSize} {q : PtePtr}
    (h : Fills x i q) : FilledSince (tr ++ [x]) i q :=
  ⟨tr, x, [], rfl, h, fun _ hy => absurd hy List.not_mem_nil⟩

theorem FilledSince.snoc {tr : List Entry} {x : Entry} {i : Fin poolSize} {q : PtePtr}
    (h : FilledSince tr i q) (hx : ¬ HandsOut x q.1) : FilledSince (tr ++ [x]) i q := by
  obtain ⟨tr₁, y, tr₂, rfl, hy, hno⟩ := h
  refine ⟨tr₁, y, tr₂ ++ [x], by simp, hy, fun z hz => ?_⟩
  rcases List.mem_append.mp hz with hz | hz
  · exact hno z hz
  · obtain rfl := List.mem_singleton.mp hz
    exact hx

/-! ## Pages of its own -/

/-- The page that is being brought in is one of `s`. -/
def Phase.OfSupp (s : SuppPtr) : Phase → Prop
  | .found page | .paging page _ _ => page.1 = s
  | .user | .acquiring | .waiting | .holding | .mapped | .terminating | .deallocated | .notified
  | .stray => True

theorem Phase.OfSupp.outside {s : SuppPtr} {φ : Phase} (h : φ.inside = false) : φ.OfSupp s := by
  cases φ with
  | user | acquiring | waiting | terminating | deallocated | notified | stray => trivial
  | holding | mapped | found _ | paging _ _ _ => exact nomatch h

def Sys.OwnPages (k : Sys) : Prop := ∀ p u, k.proc p = some u → u.phase.OfSupp u.supp

/-- How a step changes the swap table. -/
inductive FrameMove (k : Sys) : Event → Sys → Prop where
  | keep {e k'} (hvm : k'.vm.swapTable = k.vm.swapTable) : FrameMove k e k'
  | record {p u page frame} (hp : k.proc p = some u) (hu : u.phase = .paging page frame .loaded) :
      FrameMove k (.next p) ((k.setVm (k.vm.updateSwapTableEntry frame page)).setPhase p u
        (.paging page frame .recorded))

section
variable {k k' : Sys} {p : PcbPtr} {u : Uproc} {e : Event} {tr : List Entry} {free : List SuppPtr}

namespace Sys.OwnPages

/-- A process moves. -/
theorem move {φ : Phase} (h : k.OwnPages) (hφ : φ.OfSupp u.supp) :
    (k.setPhase p u φ).OwnPages := by
  intro r v hv
  rcases Sys.of_setPhase hv with ⟨rfl, rfl⟩ | ⟨-, hv⟩
  · exact hφ
  · exact h r v hv

theorem gone (h : k.OwnPages) : (k.termProcess p).OwnPages := by
  intro r v hv
  exact h r v (Sys.of_termProcess hv).2

theorem create {asid : Word} {supp : SuppPtr} (pool : Pool) (h : k.OwnPages) :
    (k.create p asid supp pool).OwnPages := by
  intro r v hv
  rcases eq_or_ne r p with rfl | hr
  · obtain rfl := Option.some.inj ((k.create_self r asid supp pool).symm.trans hv)
    trivial
  · exact h r v ((k.create_of_ne p asid supp pool hr).symm.trans hv)

/-- Its page stays the one it is. -/
theorem page {page : PtePtr} {frame frame' : Fin poolSize} {stage stage' : Stage}
    (vm : Vm) (h : k.OwnPages) (hp : k.proc p = some u) (hu : u.phase = .paging page frame stage) :
    ((k.setVm vm).setPhase p u (.paging page frame' stage')).OwnPages := by
  have hpage : (Phase.paging page frame stage).OfSupp u.supp := hu ▸ h p u hp
  exact move (k := k.setVm vm) h hpage

theorem page_fst {page : PtePtr} {frame : Fin poolSize} {stage : Stage} (h : k.OwnPages)
    (hp : k.proc p = some u) (hu : u.phase = .paging page frame stage) : page.1 = u.supp := by
  have hpage : (Phase.paging page frame stage).OfSupp u.supp := hu ▸ h p u hp
  exact hpage

end Sys.OwnPages

theorem Outcome.ownPages (h : Outcome k e k') (hl : k.Locks) (hk : k.OwnPages) :
    k'.OwnPages := by
  cases h with
  | @created _ _ _ pool _ _ _ _ | @spawned _ _ _ pool _ _ _ => exact hk.create pool
  | allCreated _ _ | rootDown _ _ | rootReturns _ _ | store _ _ _ | refill _ _ _ _ _ => exact hk
  | rootEnds _ => exact nofun
  | refillEnds _ _ _ _ _ | missing _ _ _ | gone _ _ => exact hk.gone
  | fault _ _ => exact .move (k := k.setVm _) hk (.outside (Phase.ofFate_outside ..).1)
  | except _ _ => exact .move (k := k.setVm _) hk (.outside (Phase.ofFate_outside ..).1)
  | acquire _ _ =>
      refine .move (k := { k with swapSem := _ }) hk ?_
      split
      · trivial
      · trivial
  | find _ _ _ => exact hk.move rfl
  | @choose p u page hp hu =>
      have hpage : (Phase.found page).OfSupp u.supp := hu ▸ hk p u hp
      exact .move (k := k.setVm _) hk hpage
  | evict hp hu _ _ => exact hk.page _ hp hu
  | skip hp hu _ => exact hk.page k.vm hp hu
  | writeOut hp hu _ => exact hk.page _ hp hu
  | readIn hp hu | record hp hu | wrote hp hu | loaded hp hu => exact hk.page _ hp hu
  | map _ _ => exact .move (k := k.setVm _) hk trivial
  | @release p u hp hu =>
      intro r v hv
      rcases verhogenSwap_proc hl hv with ⟨rfl, rfl⟩ | ⟨-, h | ⟨w, _, _, rfl⟩⟩
      · trivial
      · exact hk r v h
      · trivial
  | dealloc _ _ => exact .move (k := { k with pool := _ }) hk trivial
  | notify _ _ => exact .move (k := k.notifyTerminated) hk trivial

/-! ## Steps -/

theorem Outcome.frameMove (h : Outcome k e k') : FrameMove k e k' := by
  cases h with
  | record hp hu => exact .record hp hu
  | created _ _ _ _ | allCreated _ _ | rootDown _ _ | rootReturns _ _ | rootEnds _ | spawned _ _ _
  | store _ _ _ | refill _ _ _ _ _ | refillEnds _ _ _ _ _ | fault _ _ | except _ _ | acquire _ _
  | missing _ _ _ | find _ _ _ | choose _ _ | evict _ _ _ _ | skip _ _ _ | writeOut _ _ _
  | readIn _ _ | map _ _ | release _ _ | dealloc _ _ | notify _ _ | gone _ _ | wrote _ _
  | loaded _ _ => exact .keep rfl

theorem record_page {vm : Vm} {i : Fin poolSize} {page q : PtePtr}
    (h : ((vm.updateSwapTableEntry i page).swapTable i).swPte = some q) : page = q := by
  simpa [Vm.updateSwapTableEntry] using h

theorem record_of_ne (vm : Vm) {i j : Fin poolSize} (page : PtePtr) (h : j ≠ i) :
    (vm.updateSwapTableEntry i page).swapTable j = vm.swapTable j := Function.update_of_ne h ..

/-- A structure becomes free when its U-proc ends. -/
theorem UseMove.freed (h : UseMove k e k') (hk : k.Users free) {s : SuppPtr}
    (hs : k'.pool.Free s) : k.pool.Free s ∨ ∃ p u, e = .next p ∧ k.proc p = some u ∧
      u.phase = .terminating ∧ u.supp = s := by
  cases h with
  | keep _ hpool _ => exact .inl (hpool ▸ hs)
  | @free p u hp hu =>
      have huse : u.phase.uses = true := by
        rw [hu]
        rfl
      rcases List.mem_cons.mp ((hk.pool.deallocSupp (hk.busy hp huse)).free_iff.mp hs) with rfl | hs
      · exact .inr ⟨p, u, rfl, hp, hu, rfl⟩
      · exact .inl (hk.pool.free_iff.mpr hs)
  | create _ halloc _ _ hpool _ =>
      have hrest := hk.pool.allocSupp.2
      rw [halloc, ← hpool] at hrest
      exact .inl (hk.pool.free_iff.mpr (List.mem_of_mem_tail (hrest.free_iff.mp hs)))

/-- Only free structures are handed out. -/
theorem UseMove.handsOut (h : UseMove k e k') (hk : k.Users free) {s : SuppPtr}
    (hs : HandsOut ⟨k, e, k'⟩ s) : k.pool.Free s := by
  obtain ⟨r, v, hr, hv, rfl⟩ := hs
  dsimp only at hr hv
  cases h with
  | keep _ _ hproc =>
      obtain ⟨w, hw, -⟩ := hproc r v hv
      exact nomatch hr.symm.trans hw
  | @free p u hp _ =>
      rcases eq_or_ne r p with rfl | hne
      · exact nomatch hr.symm.trans hp
      · exact nomatch hr.symm.trans ((Sys.setPhase_of_ne _ _ _ _ hne).symm.trans hv)
  | @create _ _ p asid supp pool _ halloc _ _ _ hproc =>
      rw [hproc] at hv
      rcases eq_or_ne r p with rfl | hne
      · obtain rfl := Option.some.inj ((k.create_self r asid supp pool).symm.trans hv)
        have htop := hk.pool.allocSupp.1
        rw [halloc] at htop
        exact hk.pool.free_iff.mpr (List.mem_of_head? htop.symm)
      · exact nomatch hr.symm.trans ((k.create_of_ne p asid supp pool hne).symm.trans hv)

structure FrameInv (tr : List Entry) (k : Sys) : Prop where
  locks : k.Locks
  users : ∃ free, k.Users free
  own : k.OwnPages
  unreferenced : ∀ s, k.pool.Free s → k.vm.Unreferenced s
  filled : ∀ i q, frameIsOccupied (k.vm.swapTable i) = true → (k.vm.swapTable i).swPte = some q →
    FilledSince tr i q

theorem FrameInv.step (h : FrameInv tr k) (hs : step k e = some k') (hx : Vacates ⟨k, e, k'⟩) :
    FrameInv (tr ++ [⟨k, e, k'⟩]) k' := by
  obtain ⟨free, husers⟩ := h.users
  have hout := step_outcome hs
  have huse := hout.useMove h.locks
  refine ⟨(hout.lockMove h.locks).locks h.locks, huse.users husers, hout.ownPages h.locks h.own,
    fun s hfree => ?_, fun i q hocc hq => ?_⟩
  · have hbefore : k.vm.Unreferenced s := by
      rcases huse.freed husers hfree with hfree | ⟨p, u, he, hp, hu, rfl⟩
      · exact h.unreferenced s hfree
      · exact hx p u he hp hu
    cases hout.frameMove with
    | keep hvm =>
        unfold Vm.Unreferenced
        rw [hvm]
        exact hbefore
    | @record p u page frame hp hu =>
        intro i q hocc hq
        rcases eq_or_ne i frame with rfl | hi
        · obtain rfl := record_page hq
          rw [h.own.page_fst hp hu]
          rintro rfl
          exact husers.busy hp (by rw [hu]; rfl) (husers.pool.free_iff.mp hfree)
        · rw [Sys.setPhase_vm, Sys.setVm_vm, record_of_ne _ _ hi] at hocc hq
          exact hbefore i q hocc hq
  · cases hout.frameMove with
    | keep hvm =>
        rw [hvm] at hocc hq
        refine (h.filled i q hocc hq).snoc fun hout => ?_
        exact h.unreferenced q.1 (huse.handsOut husers hout) i q hocc hq rfl
    | @record p u page frame hp hu =>
        rcases eq_or_ne i frame with rfl | hi
        · obtain rfl := record_page hq
          exact .last ⟨p, u, rfl, hp, (h.own.page_fst hp hu).symm, hu⟩
        · rw [Sys.setPhase_vm, Sys.setVm_vm, record_of_ne _ _ hi] at hocc hq
          refine (h.filled i q hocc hq).snoc fun hout => ?_
          exact h.unreferenced q.1 (huse.handsOut husers hout) i q hocc hq rfl

theorem step_terminating (hp : k.proc p = some u) (hu : u.phase = .terminating) :
    step k (.next p) =
      some ({ k with pool := k.pool.deallocSupp (some u.supp) }.setPhase p u .deallocated) := by
  simp only [Phase3.step, hp, Option.bind_some, Sys.next, hu]

/-! ## Runs -/

theorem Machine.start_frames (m : Machine) : FrameInv [] m.start where
  locks := m.start_locks
  users := ⟨_, m.start_users⟩
  own := nofun
  unreferenced := nofun
  filled := nofun

theorem Run.frames {m : Machine} (h : Run m tr k) (hx : ∀ x ∈ tr, Vacates x) : FrameInv tr k :=
  h.invariant (P := FrameInv) hx m.start_frames fun h hs hx => h.step hs hx

/-- In a run of U-procs that are created, fault and terminate in any order, no
frame ever refers to a structure on the stack if and only if every U-proc that
terminates leaves no page of its own in a frame.  Then all that the frames hold
has been loaded by the U-procs that have the structures now. -/
theorem free_unreferenced {m : Machine} (h : Run m tr k) :
    ((∀ x ∈ tr, ∀ s, x.after.pool.Free s → x.after.vm.Unreferenced s) ↔ ∀ x ∈ tr, Vacates x) ∧
      ((∀ x ∈ tr, Vacates x) → ∀ i q, frameIsOccupied (k.vm.swapTable i) = true →
        (k.vm.swapTable i).swPte = some q → FilledSince tr i q) := by
  refine ⟨⟨fun hall x hmem => ?_, fun hx x hmem => ?_⟩, fun hx => (h.frames hx).filled⟩
  · obtain ⟨tr₁, tr₂, -, hrun, hs⟩ := h.of_mem hmem
    obtain ⟨-, free, husers⟩ := Run.users hrun
    intro p u he hp hu
    have huse : u.phase.uses = true := by
      rw [hu]
      rfl
    rw [he, step_terminating hp hu, Option.some.injEq] at hs
    have hfree : x.after.pool.Free u.supp := by
      rw [← hs]
      exact (husers.pool.deallocSupp (husers.busy hp huse)).free_iff.mpr List.mem_cons_self
    have hafter := hall x hmem u.supp hfree
    rw [← hs] at hafter
    exact hafter
  · obtain ⟨tr₁, tr₂, rfl, hrun, hs⟩ := h.of_mem hmem
    have hafter : Run m (tr₁ ++ [x]) x.after := hrun.snoc hs
    refine (hafter.frames fun y hy => hx y ?_).unreferenced
    rcases List.mem_append.mp hy with hy | hy
    · exact List.mem_append_left _ hy
    · rw [List.mem_singleton.mp hy]
      exact hmem

end

/-- The first U-proc has its first page in the frame 0 when the second, which
has not touched any page, terminates. -/
def unused : List Event :=
  [.root 1, .root 2] ++ (faultOn 0 ++ .next 1 :: readsIn) ++
    [.except 2 terminates, .next 2, .next 2, .next 2]

theorem free_unreferenced_unused : ∃ tr k, Run .zero tr k ∧ tr.map Trace.Entry.event = unused ∧
    frameIsOccupied (k.vm.swapTable 0) = true ∧ (∃ s, k.pool.Free s) ∧
      ∀ x ∈ tr, ∀ s, x.after.pool.Free s → x.after.vm.Unreferenced s := by
  have hany : (Trace.exec step Machine.zero.start unused).any (fun x =>
      frameIsOccupied (x.2.vm.swapTable 0) = true ∧ x.2.pool.freeSuppTp = some 6 ∧
        ∀ z ∈ x.1, ∀ p, ((z.before.proc p).all fun u => u.phase ≠ .terminating ∨
          ∀ i, ((z.before.vm.swapTable i).swPte.all fun q => q.1 ≠ u.supp) = true) = true) =
      true := by
    decide +kernel
  obtain ⟨tr, k, hrun, hevents, h⟩ := Trace.run_of_any hany
  obtain ⟨hocc, htop, hall⟩ := of_decide_eq_true h
  obtain ⟨-, free, hk⟩ := Run.users hrun
  refine ⟨tr, k, hrun, hevents, hocc, ⟨6, hk.pool.free_top htop⟩,
    (free_unreferenced hrun).1.mpr fun x hx p u _ hp hu i q _ hq => ?_⟩
  have hpages := (Option.all_eq_true _ _).mp (hall x hx p) u hp
  have hpage := (of_decide_eq_true hpages).resolve_left (not_not.mpr hu) i
  exact of_decide_eq_true ((Option.all_eq_true _ _).mp hpage q hq)

/-- A U-proc terminates while its first page is in the frame 0. -/
theorem referenced_fault : ∃ tr k, Run .zero tr k ∧
    tr.map Trace.Entry.event = [.root 1, .fault 1 (firstFault 0), .next 1, .next 1, .next 1, .next 1,
      .next 1, .flashDone 1 ready, .next 1, .next 1, .next 1, .except 1 terminates, .next 1] ∧
      ∃ s, k.pool.Free s ∧ ¬ k.vm.Unreferenced s := by
  have hany : (Trace.exec step Machine.zero.start [.root 1, .fault 1 (firstFault 0), .next 1, .next 1,
      .next 1, .next 1, .next 1, .flashDone 1 ready, .next 1, .next 1, .next 1, .except 1 terminates,
      .next 1]).any (fun x => x.2.pool.freeSuppTp = some 7 ∧
        frameIsOccupied (x.2.vm.swapTable 0) = true ∧
          (x.2.vm.swapTable 0).swPte = some (7, 0)) = true := by
    decide +kernel
  obtain ⟨tr, k, hrun, hevents, h⟩ := Trace.run_of_any hany
  obtain ⟨htop, hocc, hpage⟩ := of_decide_eq_true h
  obtain ⟨-, free, hk⟩ := Run.users hrun
  exact ⟨tr, k, hrun, hevents, 7, hk.pool.free_top htop, fun hno => hno 0 _ hocc hpage rfl⟩

end Pandos.Phase3
