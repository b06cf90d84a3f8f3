/-
# `Pandos.Phase3.Replacement` — which frame is replaced

`updateFrameIndexToReplace` takes the first frame that is free, and the one
after the last if none is.  No frame ever becomes free again, and the pager
holds `swapSem` from the choice of a frame to the entry in the swap pool
table; so the frames are chosen and loaded in `turns` (`InTurn`), one load for
each choice, up to the last.

With `turns` replacement is first in, first out (`replaces_in_turn`), over all
runs, whoever faults in between.
-/
import Pandos.Lib.Fifo
import Pandos.Phase3.Tables

namespace Pandos.Phase3

open Fifo RoundRobin

/-! ## Choices and loads -/

/-- The frame a process has chosen, and has loaded no page into. -/
def Phase.choice : Phase → Option (Fin poolSize)
  | .paging _ f .chosen | .paging _ f .invalidated | .paging _ f (.writing _)
  | .paging _ f .vacated | .paging _ f (.reading _) | .paging _ f .loaded => some f
  | .paging _ _ .recorded | .user | .acquiring | .waiting | .holding | .found _ | .mapped
  | .terminating | .deallocated | .notified | .stray => none

/-- The frame that is chosen in a step. -/
def chooses (x : Entry) : Option (Fin poolSize) :=
  match x.event with
  | .next p => (x.before.proc p).bind fun u =>
      match u.phase with
      | .found _ => some x.after.vm.frameIndexToReplace
      | _ => none
  | .root _ | .spawn _ _ | .store _ _ _ _ | .refill _ _ | .fault _ _ | .except _ _
  | .flashDone _ _ => none

/-- The frame whose entry in the swap pool table is made in a step, and its page. -/
def loads (x : Entry) : Option (Fin poolSize × PtePtr) :=
  match x.event with
  | .next p => (x.before.proc p).bind fun u =>
      match u.phase with
      | .paging page f .loaded => some (f, page)
      | _ => none
  | .root _ | .spawn _ _ | .store _ _ _ _ | .refill _ _ | .fault _ _ | .except _ _
  | .flashDone _ _ => none

def choices (tr : List Entry) : List (Fin poolSize) := tr.filterMap chooses

/-- The frames that have been loaded, in order. -/
def loaded (tr : List Entry) : List (Fin poolSize) := tr.filterMap fun x => (loads x).map Prod.fst

/-- `initSwapTable` has left the entry of `f`, and nobody has changed it. -/
def Vm.Free (vm : Vm) (f : Fin poolSize) : Prop := (vm.swapTable f).swAsid = -1

instance (vm : Vm) (f : Fin poolSize) : Decidable (vm.Free f) :=
  inferInstanceAs (Decidable (_ = _))

theorem updateFrameIndexToReplace_eq (vm : Vm) :
    vm.updateFrameIndexToReplace.frameIndexToReplace =
      place (fun i => vm.Free i) vm.frameIndexToReplace := by
  have hfree : ((List.finRange poolSize).find? fun i => vm.Free i) =
      (List.finRange poolSize).find? fun i => (vm.swapTable i).swAsid = -1 := rfl
  unfold place Vm.updateFrameIndexToReplace
  dsimp only
  rw [hfree]
  cases (List.finRange poolSize).find? fun i => decide ((vm.swapTable i).swAsid = -1) with
  | none | some _ => rfl

section
variable {k k' : Sys} {p : PcbPtr} {u : Uproc} {e : Event} {n l : Nat}

theorem Phase.choice_inside {φ : Phase} {f : Fin poolSize} (h : φ.choice = some f) :
    φ.inside = true := by
  cases φ with
  | holding | found _ | paging _ _ _ | mapped => rfl
  | user | acquiring | waiting | terminating | deallocated | notified | stray => exact nomatch h

theorem chooses_loads_of_event (h : ∀ p, e ≠ .next p) :
    chooses ⟨k, e, k'⟩ = none ∧ loads ⟨k, e, k'⟩ = none := by
  cases e with
  | next p => exact absurd rfl (h p)
  | root _ | spawn _ _ | store _ _ _ _ | refill _ _ | fault _ _ | except _ _ | flashDone _ _ =>
      exact ⟨rfl, rfl⟩

theorem chooses_next (k' : Sys) (hp : k.proc p = some u) : chooses ⟨k, .next p, k'⟩ =
    match u.phase with
    | .found _ => some k'.vm.frameIndexToReplace
    | _ => none := by
  simp only [chooses, hp, Option.bind_some]

theorem loads_next (k' : Sys) (hp : k.proc p = some u) : loads ⟨k, .next p, k'⟩ =
    match u.phase with
    | .paging page f .loaded => some (f, page)
    | _ => none := by
  simp only [loads, hp, Option.bind_some]

/-! ## Turns -/

/-- After `n` choices and `l` loads: the frames have been taken in turn, and
if there is a choice more, whoever has made it is inside, or nobody will be. -/
structure InTurn (n l : Nat) (k : Sys) : Prop where
  le : l ≤ n
  free : ∀ i : Fin poolSize, k.vm.Free i ↔ l ≤ i
  last : 0 < n → k.vm.frameIndexToReplace = Fin.ofNat poolSize (n - 1)
  chosen : ∀ {p u f}, k.proc p = some u → u.phase.choice = some f →
    n = l + 1 ∧ f = Fin.ofNat poolSize l
  inside : n ≠ l → ∀ {p u}, k.proc p = some u → u.phase.inside = true →
    u.phase.choice = some (Fin.ofNat poolSize l)
  locked : n ≠ l → k.swapSem.value ≠ 1

namespace InTurn

/-- Who is inside without a choice finds as many loads as choices. -/
theorem eq_of_inside (h : InTurn n l k) (hp : k.proc p = some u) (hin : u.phase.inside = true)
    (hu : u.phase.choice = none) : n = l := by
  by_contra hne
  exact nomatch hu.symm.trans (h.inside hne hp hin)

/-- Nothing is chosen or loaded, and nobody comes in while a choice is open. -/
theorem keep (h : InTurn n l k) (htable : k'.vm.swapTable = k.vm.swapTable)
    (hindex : k'.vm.frameIndexToReplace = k.vm.frameIndexToReplace)
    (hproc : ∀ r v, k'.proc r = some v → v.phase.inside = true →
      (∃ u, k.proc r = some u ∧ u.phase.inside = true ∧ u.phase.choice = v.phase.choice) ∨
        v.phase.choice = none ∧ n = l)
    (hsem : n ≠ l → k'.swapSem.value ≠ 1) : InTurn n l k' where
  le := h.le
  free i := by
    rw [Vm.Free, htable]
    exact h.free i
  last hn := hindex.trans (h.last hn)
  chosen {r v f} hv hf := by
    rcases hproc r v hv (Phase.choice_inside hf) with ⟨u, hu, -, hc⟩ | ⟨hc, -⟩
    · exact h.chosen hu (hc.trans hf)
    · exact nomatch hc.symm.trans hf
  inside hne {r v} hv hin := by
    rcases hproc r v hv hin with ⟨u, hu, hui, hc⟩ | ⟨-, heq⟩
    · exact hc.symm.trans (h.inside hne hu hui)
    · exact absurd heq hne
  locked := hsem

/-- Nobody comes in. -/
theorem stay (h : InTurn n l k) (htable : k'.vm.swapTable = k.vm.swapTable)
    (hindex : k'.vm.frameIndexToReplace = k.vm.frameIndexToReplace)
    (hsem : k'.swapSem = k.swapSem) (hproc : ∀ r v, k'.proc r = some v →
      v.phase.inside = true → k.proc r = some v) : InTurn n l k' :=
  h.keep htable hindex (fun r v hv hin => .inl ⟨v, hproc r v hv hin, hin, rfl⟩)
    fun hne => hsem ▸ h.locked hne

/-- A process moves, and stays inside or outside. -/
theorem move (h : InTurn n l k) {φ : Phase} (hp : k.proc p = some u)
    (htable : k'.vm.swapTable = k.vm.swapTable)
    (hindex : k'.vm.frameIndexToReplace = k.vm.frameIndexToReplace)
    (hsem : k'.swapSem = k.swapSem) (hproc : k'.proc = (k.setPhase p u φ).proc)
    (hin : φ.inside = true → u.phase.inside = true ∧ u.phase.choice = φ.choice) :
    InTurn n l k' := by
  refine h.keep htable hindex (fun r v hv hvin => ?_) fun hne => hsem ▸ h.locked hne
  rw [hproc] at hv
  rcases Sys.of_setPhase hv with ⟨rfl, rfl⟩ | ⟨-, hv⟩
  · exact .inl ⟨u, hp, hin hvin⟩
  · exact .inl ⟨v, hv, hvin, rfl⟩

theorem gone (h : InTurn n l k) (p : PcbPtr) : InTurn n l (k.termProcess p) := by
  refine h.stay rfl rfl rfl fun r v hv _ => ?_
  exact (Sys.of_termProcess hv).2

/-- A new process is outside. -/
theorem create (h : InTurn n l k) (p : PcbPtr) (asid : Word) (supp : SuppPtr) (pool : Pool)
    (hvm : k'.vm = (k.create p asid supp pool).vm) (hsem : k'.swapSem = k.swapSem)
    (hproc : k'.proc = (k.create p asid supp pool).proc) : InTurn n l k' := by
  refine h.stay (by rw [hvm]; rfl) (by rw [hvm]; rfl) hsem fun r v hv hin => ?_
  rw [hproc] at hv
  rcases eq_or_ne r p with rfl | hr
  · rw [Sys.create_self, Option.some.injEq] at hv
    subst hv
    exact nomatch hin
  · rwa [k.create_of_ne p asid supp pool hr] at hv

/-- While a choice is open, nobody passes the `P`. -/
theorem acquire (h : InTurn n l k) (hl : k.Locks) (p : PcbPtr) (u : Uproc) :
    InTurn n l (k.passerenSwap p u) := by
  have hvalue : n ≠ l → k.swapSem.value - 1 < 0 := fun hne => by
    have hle := hl.value_le
    have hne1 := h.locked hne
    omega
  refine h.keep rfl rfl (fun r v hv hin => ?_) fun hne => ?_
  · rcases Sys.of_setPhase hv with ⟨rfl, rfl⟩ | ⟨-, hv⟩
    · split at hin
      · exact nomatch hin
      next hpass =>
        refine .inr ⟨?_, not_not.mp fun hne => hpass (hvalue hne)⟩
        rw [if_neg hpass]
        rfl
    · exact .inl ⟨v, hv, hin, rfl⟩
  · have hneg := hvalue hne
    show k.swapSem.value - 1 ≠ 1
    omega

/-- Whoever releases the lock has no choice open. -/
theorem release (h : InTurn n l k) (hl : k.Locks) (hp : k.proc p = some u)
    (hu : u.phase = .mapped) : InTurn n l (k.verhogenSwap p u) := by
  have heq : n = l := h.eq_of_inside hp (by rw [hu]; rfl) (by rw [hu]; rfl)
  refine h.keep rfl rfl (fun r v hv hin => ?_) fun hne => absurd heq hne
  rcases verhogenSwap_proc hl hv with ⟨rfl, rfl⟩ | ⟨-, hv | ⟨w, -, -, rfl⟩⟩
  · cases hin
  · exact .inl ⟨v, hv, hin, rfl⟩
  · exact .inr ⟨rfl, heq⟩

/-- The end of the root process lets nobody in. -/
theorem termAll (h : InTurn n l k) (hl : k.Locks) : InTurn n l k.termAll := by
  refine h.keep rfl rfl nofun fun hne => ?_
  have hne1 := h.locked hne
  have hlen := hl.length
  have hle := hl.value_le
  have hall : k.swapSem.queue.countP (fun _ => true) = k.swapSem.queue.length := by simp
  show k.swapSem.value + k.swapSem.queue.countP (fun _ => true) ≠ 1
  rw [hall]
  omega

theorem choose {page : PtePtr} (h : InTurn n l k) (hp : k.proc p = some u)
    (hu : u.phase = .found page) (hl : k.Locks) : n = l ∧
      k.vm.updateFrameIndexToReplace.frameIndexToReplace = Fin.ofNat poolSize l ∧
      InTurn (l + 1) l ((k.setVm k.vm.updateFrameIndexToReplace).setPhase p u
        (.paging page k.vm.updateFrameIndexToReplace.frameIndexToReplace .chosen)) := by
  have hin : u.phase.inside = true := by
    rw [hu]
    rfl
  obtain rfl : n = l := h.eq_of_inside hp hin (by rw [hu]; rfl)
  have hindex : k.vm.updateFrameIndexToReplace.frameIndexToReplace = Fin.ofNat poolSize n := by
    rw [updateFrameIndexToReplace_eq]
    exact place_eq (fun i => decide_eq_true_iff.trans (h.free i)) h.last
  refine ⟨rfl, hindex, Nat.le_succ n, h.free, fun _ => hindex, ?_, ?_, fun _ => ?_⟩
  · intro r v f hv hf
    rcases Sys.of_setPhase hv with ⟨rfl, rfl⟩ | ⟨-, hv⟩
    · exact ⟨rfl, (Option.some.inj hf).symm.trans hindex⟩
    · exact absurd (h.chosen hv hf).1 (by omega)
  · intro _ r v hv hvin
    rcases Sys.of_setPhase hv with ⟨rfl, rfl⟩ | ⟨hr, hv⟩
    · exact congrArg some hindex
    · exact absurd (hl.unique ⟨v, hv, hvin⟩ ⟨u, hp, hin⟩) hr
  · have hle := hl.value_nonpos ⟨u, hp, hin⟩
    show k.swapSem.value ≠ 1
    omega

theorem record {page : PtePtr} {f : Fin poolSize} (h : InTurn n l k) (hp : k.proc p = some u)
    (hu : u.phase = .paging page f .loaded) (hl : k.Locks) : n = l + 1 ∧
      f = Fin.ofNat poolSize l ∧ InTurn n (l + 1)
        ((k.setVm (k.vm.updateSwapTableEntry f page)).setPhase p u (.paging page f .recorded)) := by
  have hin : u.phase.inside = true := by
    rw [hu]
    rfl
  obtain ⟨rfl, rfl⟩ := h.chosen hp (f := f) (by rw [hu]; rfl)
  refine ⟨rfl, rfl, le_refl _, fun i => ?_, h.last, ?_, nofun, nofun⟩
  · -- the frame of a load is the first one without
    show (Function.update k.vm.swapTable (Fin.ofNat poolSize l) _ i).swAsid = -1 ↔ l + 1 ≤ i
    rcases eq_or_ne i (Fin.ofNat poolSize l) with rfl | hi
    · rw [Function.update_self]
      have hmod : l % poolSize ≤ l := Nat.mod_le l poolSize
      refine iff_of_false (fun hneg => ?_) (fun hle => ?_)
      · have hneg : ((entryHiGetAsid (k.vm.pte page).entryHi).toNat : Int) = -1 := hneg
        omega
      · have hle : l + 1 ≤ l % poolSize := hle
        omega
    · rw [Function.update_of_ne hi]
      refine (h.free i).trans ⟨fun hle => Nat.lt_of_le_of_ne hle fun heq => hi ?_, Nat.le_of_succ_le⟩
      rw [heq, Fin.ofNat_val_eq_self]
  · intro r v f hv hf
    rcases Sys.of_setPhase hv with ⟨rfl, rfl⟩ | ⟨hr, hv⟩
    · cases hf
    · have hvin : k.Inside r := ⟨v, hv, Phase.choice_inside hf⟩
      exact absurd (hl.unique hvin ⟨u, hp, hin⟩) hr

end InTurn

/-- What a step does with the frames. -/
inductive TurnMove (n l : Nat) (k : Sys) (e : Event) (k' : Sys) : Prop where
  | keep (hx : chooses ⟨k, e, k'⟩ = none ∧ loads ⟨k, e, k'⟩ = none)
      (htable : k'.vm.swapTable = k.vm.swapTable) (h : InTurn n l k')
  | choose (hx : chooses ⟨k, e, k'⟩ = some (Fin.ofNat poolSize l) ∧ loads ⟨k, e, k'⟩ = none)
      (htable : k'.vm.swapTable = k.vm.swapTable) (hn : n = l) (h : InTurn (l + 1) l k')
  | load {page} (hx : chooses ⟨k, e, k'⟩ = none ∧
        loads ⟨k, e, k'⟩ = some (Fin.ofNat poolSize l, page))
      (htable : k'.vm.swapTable =
        (k.vm.updateSwapTableEntry (Fin.ofNat poolSize l) page).swapTable)
      (hn : n = l + 1) (h : InTurn n (l + 1) k')

theorem Outcome.turnMove (h : Outcome k e k') (hl : k.Locks) (ht : InTurn n l k) :
    TurnMove n l k e k' := by
  have hother : (∀ p, e ≠ .next p) → chooses ⟨k, e, k'⟩ = none ∧ loads ⟨k, e, k'⟩ = none :=
    chooses_loads_of_event
  have hnext := fun (p : PcbPtr) u (hp : k.proc p = some u) =>
    And.intro (chooses_next k' hp) (loads_next k' hp)
  cases h with
  | @created _ _ _ pool _ _ _ _ | @spawned _ _ _ pool _ _ _ =>
      exact .keep (hother nofun) rfl (ht.create _ _ _ pool rfl rfl rfl)
  | allCreated _ _ | rootDown _ _ | rootReturns _ _ | store _ _ _ | refill _ _ _ _ _ =>
      exact .keep (hother nofun) rfl (ht.stay rfl rfl rfl fun _ _ hv _ => hv)
  | rootEnds _ => exact .keep (hother nofun) rfl (ht.termAll hl)
  | refillEnds _ _ _ _ _ => exact .keep (hother nofun) rfl (ht.gone _)
  | missing hp hu _ | gone hp hu =>
      exact .keep (by simp only [hnext _ _ hp, hu, and_self]) rfl (ht.gone _)
  | fault hp hu | except hp hu =>
      refine .keep (hother nofun) rfl (ht.move hp rfl rfl rfl rfl fun hin => ?_)
      exact nomatch (Phase.ofFate_outside _ _).1.symm.trans hin
  | acquire hp hu =>
      exact .keep (by simp only [hnext _ _ hp, hu, and_self]) rfl (ht.acquire hl _ _)
  | release hp hu =>
      exact .keep (by simp only [hnext _ _ hp, hu, and_self]) rfl (ht.release hl hp hu)
  | find hp hu _ | evict hp hu _ _ | skip hp hu _ | writeOut hp hu _ | readIn hp hu | map hp hu =>
      refine .keep (by simp only [hnext _ _ hp, hu, and_self]) rfl
        (ht.move hp rfl rfl rfl rfl fun _ => ?_)
      rw [hu]
      exact ⟨rfl, rfl⟩
  | dealloc hp hu | notify hp hu =>
      exact .keep (by simp only [hnext _ _ hp, hu, and_self]) rfl (ht.move hp rfl rfl rfl rfl nofun)
  | wrote hp hu | loaded hp hu =>
      refine .keep (hother nofun) rfl (ht.move hp rfl rfl rfl rfl fun _ => ?_)
      rw [hu]
      exact ⟨rfl, rfl⟩
  | choose hp hu =>
      obtain ⟨hn, hindex, h⟩ := ht.choose hp hu hl
      refine .choose ?_ rfl hn h
      simp only [hnext _ _ hp, hu, and_true]
      exact congrArg some hindex
  | record hp hu =>
      obtain ⟨hn, rfl, h⟩ := ht.record hp hu hl
      exact .load (by simp only [hnext _ _ hp, hu, and_self]) rfl hn h

/-- The entry of a frame is changed by its loads only. -/
theorem Outcome.swapTable (h : Outcome k e k') {f : Fin poolSize}
    (hx : ∀ q, loads ⟨k, e, k'⟩ ≠ some (f, q)) : k'.vm.swapTable f = k.vm.swapTable f := by
  cases h with
  | @record p u page f' hp hu =>
      refine Function.update_of_ne (fun heq => hx page ?_) ..
      subst heq
      simp only [loads_next _ hp, hu]
  | created _ _ _ _ | allCreated _ _ | rootDown _ _ | rootReturns _ _ | rootEnds _ | spawned _ _ _
  | store _ _ _ | refill _ _ _ _ _ | refillEnds _ _ _ _ _ | fault _ _ | except _ _ | acquire _ _
  | missing _ _ _ | find _ _ _ | choose _ _ | evict _ _ _ _ | skip _ _ _ | writeOut _ _ _
  | readIn _ _ | map _ _ | release _ _ | dealloc _ _ | notify _ _ | gone _ _ | wrote _ _
  | loaded _ _ => rfl

/-! ## Runs -/

variable {m : Machine} {tr tr' : List Entry} {x : Entry} {f : Fin poolSize}

theorem choices_snoc (tr : List Entry) {o : Option (Fin poolSize)} (hx : chooses x = o) :
    choices (tr ++ [x]) = choices tr ++ o.toList := Trace.filterMap_snoc tr hx

theorem loaded_snoc (tr : List Entry) {o : Option (Fin poolSize × PtePtr)} (hx : loads x = o) :
    loaded (tr ++ [x]) = loaded tr ++ (o.map Prod.fst).toList :=
  Trace.filterMap_snoc tr (congrArg (Option.map Prod.fst) hx)

/-- There have been `n` choices and `l` loads, all in turn. -/
structure Turns (n l : Nat) (tr : List Entry) (k : Sys) : Prop where
  locks : k.Locks
  choices : choices tr = turns poolSize n
  loaded : loaded tr = turns poolSize l
  inTurn : InTurn n l k

theorem Turns.step (h : Turns n l tr k) (hs : Phase3.step k e = some k') :
    ∃ n' l', Turns n' l' (tr ++ [⟨k, e, k'⟩]) k' := by
  have hout := step_outcome hs
  have hlocks := (hout.lockMove h.locks).locks h.locks
  cases hout.turnMove h.locks h.inTurn with
  | keep hx _ ht =>
      refine ⟨n, l, hlocks, ?_, ?_, ht⟩
      · rw [choices_snoc _ hx.1, h.choices]
        exact List.append_nil _
      · rw [loaded_snoc _ hx.2, h.loaded]
        exact List.append_nil _
  | choose hx _ hn ht =>
      subst hn
      refine ⟨n + 1, n, hlocks, ?_, ?_, ht⟩
      · rw [choices_snoc _ hx.1, h.choices, turns_succ]
        rfl
      · rw [loaded_snoc _ hx.2, h.loaded]
        exact List.append_nil _
  | load hx _ _ ht =>
      refine ⟨n, l + 1, hlocks, ?_, ?_, ht⟩
      · rw [choices_snoc _ hx.1, h.choices]
        exact List.append_nil _
      · rw [loaded_snoc _ hx.2, h.loaded, turns_succ]
        rfl

theorem Machine.start_turns (m : Machine) : Turns 0 0 [] m.start where
  locks := m.start_locks
  choices := rfl
  loaded := rfl
  inTurn :=
    { le := le_refl 0
      free := fun i => iff_of_true rfl (Nat.zero_le i)
      last := nofun
      chosen := nofun
      inside := nofun
      locked := fun h => absurd rfl h }

theorem Run.turns (h : Run m tr k) : ∃ n l, Turns n l tr k :=
  h.invariant (P := fun tr k => ∃ n l, Turns n l tr k) (G := fun _ => True) (fun _ _ => trivial)
    ⟨0, 0, m.start_turns⟩ fun hP hs _ => by
      obtain ⟨n, l, ht⟩ := hP
      exact ht.step hs

theorem Run.swapTable (h : Trace.Run step k tr k') (hx : ∀ x ∈ tr, ∀ q, loads x ≠ some (f, q)) :
    k'.vm.swapTable f = k.vm.swapTable f :=
  h.invariant (P := fun _ k' => k'.vm.swapTable f = k.vm.swapTable f) hx rfl
    fun hP hs hx => ((step_outcome hs).swapTable hx).trans hP

/-! ## First in, first out -/

/-- What is to be chosen after the events `tr`: a free frame as long as one
exists, and then the one whose page was loaded first. -/
structure FirstOut (tr : List Entry) (vm : Vm) (f : Fin poolSize) : Prop where
  free : (∃ i, vm.Free i) → vm.Free f
  loaded : (∀ i, ¬ vm.Free i) → ∀ i, i ∈ loaded tr
  oldest : (∀ i, ¬ vm.Free i) → ∀ i, i ≠ f → since (Phase3.loaded tr) i < since (Phase3.loaded tr) f

/-- What is to become of the page `q` that has been loaded into `f`, in the
events `tr` after that: it stays for `poolSize - 1` faults, and the next one
chooses its frame. -/
structure Stays (tr : List Entry) (vm : Vm) (f : Fin poolSize) (q : PtePtr) : Prop where
  chosen : ∀ d c, d < poolSize → (choices tr)[d]? = some c → (c = f ↔ d = poolSize - 1)
  resident : (choices tr).length < poolSize → (vm.swapTable f).swPte = some q

theorem Turns.firstOut (h : Turns n l tr k) (hs : Phase3.step k e = some k')
    (hx : chooses ⟨k, e, k'⟩ = some f) : FirstOut tr k.vm f := by
  cases (step_outcome hs).turnMove h.locks h.inTurn with
  | keep hx' _ _ => exact nomatch hx'.1.symm.trans hx
  | load hx' _ _ _ => exact nomatch hx'.1.symm.trans hx
  | choose hx' _ _ _ =>
      obtain rfl := Option.some.inj (hx'.1.symm.trans hx)
      have hfull : (∀ i, ¬ k.vm.Free i) → poolSize ≤ l := by
        intro hnone
        by_contra hlt
        exact hnone ⟨l, Nat.lt_of_not_le hlt⟩ ((h.inTurn.free _).mpr (le_refl l))
      constructor
      case free =>
        rintro ⟨i, hi⟩
        have hli := (h.inTurn.free i).mp hi
        have hmod : l % poolSize = l := Nat.mod_eq_of_lt (Nat.lt_of_le_of_lt hli i.isLt)
        exact (h.inTurn.free _).mpr hmod.ge
      case loaded =>
        intro hnone i
        rw [h.loaded, mem_turns]
        exact Nat.lt_of_lt_of_le i.isLt (hfull hnone)
      case oldest =>
        intro hnone i hi
        rw [h.loaded]
        exact turns_oldest (hfull hnone) hi

theorem Turns.stays {n' l' : Nat} {k₂ : Sys} {q : PtePtr} (h : Turns n l tr k)
    (hs : Phase3.step k e = some k') (hx : loads ⟨k, e, k'⟩ = some (f, q))
    (h' : Turns n' l' (tr ++ ⟨k, e, k'⟩ :: tr') k₂) (hrun : Trace.Run Phase3.step k' tr' k₂) :
    Stays tr' k₂.vm f q := by
  cases (step_outcome hs).turnMove h.locks h.inTurn with
  | keep hx' _ _ => exact nomatch hx'.2.symm.trans hx
  | choose hx' _ _ _ => exact nomatch hx'.2.symm.trans hx
  | @load page hx' htable hn _ =>
      obtain ⟨rfl, rfl⟩ := Prod.mk.inj (Option.some.inj (hx'.2.symm.trans hx))
      subst hn
      have hsplit : tr ++ ⟨k, e, k'⟩ :: tr' = (tr ++ [⟨k, e, k'⟩]) ++ tr' := by simp
      rw [hsplit] at h'
      have hchosen := choices_snoc tr hx'.1
      have hloaded := loaded_snoc tr hx'.2
      rw [h.choices] at hchosen
      rw [h.loaded] at hloaded
      have hchoices := List.filterMap_append.symm.trans h'.choices
      have hloads := List.filterMap_append.symm.trans h'.loaded
      have hn := length_of_append (hchosen.trans (List.append_nil _)) hchoices
      have hl := length_of_append (hloaded.trans (turns_succ l).symm) hloads
      have hle := h'.inTurn.le
      constructor
      case chosen =>
        intro d c hd hc
        obtain rfl := getElem?_of_append (hchosen.trans (List.append_nil _)) hchoices hc
        rw [show l + 1 + d = l + (d + 1) by omega]
        constructor
        · intro heq
          by_contra hne
          exact ofNat_add_ne (Nat.succ_pos d) (by omega) heq
        · rintro rfl
          exact ofNat_add_self l
      case resident =>
        intro hlt
        have hkept : k₂.vm.swapTable (Fin.ofNat poolSize l) =
            k'.vm.swapTable (Fin.ofNat poolSize l) := by
          refine Run.swapTable hrun fun y hy r hr => ?_
          have hmem : Fin.ofNat poolSize l ∈ Phase3.loaded tr' :=
            List.mem_filterMap.mpr ⟨y, hy, by rw [hr]; rfl⟩
          obtain ⟨d, hd⟩ := List.mem_iff_getElem?.mp hmem
          obtain ⟨hdlt, -⟩ := List.getElem?_eq_some_iff.mp hd
          have heq := getElem?_of_append (hloaded.trans (turns_succ l).symm) hloads hd
          rw [show l + 1 + d = l + (d + 1) by omega] at heq
          have hdl : d < (List.filterMap (fun x => (loads x).map Prod.fst) tr').length := hdlt
          have hcl : (List.filterMap chooses tr').length < poolSize := hlt
          exact ofNat_add_ne (Nat.succ_pos d) (by omega) heq.symm
        have hself : (k.vm.updateSwapTableEntry (Fin.ofNat poolSize l) page).swapTable
            (Fin.ofNat poolSize l) = ⟨_, _, some page⟩ := Function.update_self ..
        rw [hkept, htable, hself]

end

/-- Page replacement is first in, first out: at every choice of every run, and
for every page from its load to the end of the run.  The index stays below
`poolSize`. -/
theorem replaces_in_turn {m : Machine} {tr : List Entry} {k : Sys} (h : Run m tr k) :
    (∀ tr₁ x tr₂ f, tr = tr₁ ++ x :: tr₂ → chooses x = some f → FirstOut tr₁ x.before.vm f) ∧
      (∀ tr₁ x tr₂ f q, tr = tr₁ ++ x :: tr₂ → loads x = some (f, q) → Stays tr₂ k.vm f q) ∧
      (k.vm.frameIndexToReplace : Nat) < poolSize := by
  refine ⟨?_, ?_, k.vm.frameIndexToReplace.isLt⟩
  · rintro tr₁ ⟨s, e, s'⟩ tr₂ f rfl hx
    obtain ⟨hrun, hs, -⟩ := h.split
    obtain ⟨n, l, hturns⟩ := Run.turns hrun
    exact hturns.firstOut hs hx
  · rintro tr₁ ⟨s, e, s'⟩ tr₂ f q rfl hx
    obtain ⟨hrun, hs, hrest⟩ := h.split
    obtain ⟨n, l, hturns⟩ := Run.turns hrun
    obtain ⟨n', l', hturns'⟩ := Run.turns h
    exact hturns.stays hs hx hturns' hrest

/-- The seventeenth fault chooses the frame of the first. -/
theorem replaces_in_turn_seventeen : ∃ tr x k, Run .zero (tr ++ [x]) k ∧
    (∀ i, ¬ x.before.vm.Free i) ∧ FirstOut tr x.before.vm 0 := by
  have hany : (Trace.exec step Machine.zero.start (.root 1 :: fillsPool ++ faultOn 16)).any (fun z =>
      z.1.getLast?.any fun x => chooses x = some 0 ∧ ∀ i, ¬ x.before.vm.Free i) = true := by
    decide +kernel
  obtain ⟨tr, k, hrun, -, h⟩ := Trace.run_of_any hany
  obtain ⟨x, hlast, h⟩ := (Option.any_eq_true _ _).mp h
  obtain ⟨hx, hfull⟩ := of_decide_eq_true h
  obtain ⟨tr, rfl⟩ := List.getLast?_eq_some_iff.mp hlast
  exact ⟨tr, x, k, hrun, hfull, (replaces_in_turn hrun).1 tr x [] 0 rfl hx⟩

end Pandos.Phase3
