/-
# `Pandos.Phase3.PageFault` — what one page fault changes

From its page fault on a U-proc looks for one page, and makes that page valid
and at most one other invalid before it does its `V` (`Progress`).  Together
with the bijection of `Pandos.Phase3.Consistency` this is `pager_consistency`.
-/
import Pandos.Phase3.Consistency

namespace Pandos.Phase3

/-! ## Changes -/

/-- A step of `p`, or of another process while `p` is inside. -/
def Concerns (p : PcbPtr) (x : Entry) : Prop := x.event = .next p ∨ x.before.Inside p

/-- Some step of the trace changes whether `q` is valid. -/
def Changes (p : PcbPtr) (tr : List Entry) (q : PtePtr) : Prop :=
  ∃ x ∈ tr, Concerns p x ∧
    pteEntryIsValid (x.after.vm.pte q) ≠ pteEntryIsValid (x.before.vm.pte q)

section
variable {k k' : Sys} {p : PcbPtr} {u : Uproc} {e : Event} {page q : PtePtr} {tr : List Entry}

theorem not_changes_nil : ¬ Changes p [] q := by
  rintro ⟨x, hx, -⟩
  exact nomatch hx

theorem Changes.last (h : Changes p (tr ++ [⟨k, e, k'⟩]) q) : Changes p tr q ∨
    (e = .next p ∨ k.Inside p) ∧ pteEntryIsValid (k'.vm.pte q) ≠ pteEntryIsValid (k.vm.pte q) := by
  obtain ⟨x, hx, hc, hv⟩ := h
  rcases List.mem_append.mp hx with hx | hx
  · exact .inl ⟨x, hx, hc, hv⟩
  · obtain rfl := List.mem_singleton.mp hx
    exact .inr ⟨hc, hv⟩

theorem Changes.of_same (h : Changes p (tr ++ [⟨k, e, k'⟩]) q)
    (hsame : e = .next p ∨ k.Inside p → k'.vm.pte q = k.vm.pte q) : Changes p tr q := by
  rcases h.last with h | ⟨hc, hv⟩
  · exact h
  · exact absurd (congrArg pteEntryIsValid (hsame hc)) hv

/-! ## Progress -/

/-- How far a U-proc with the support structure `s` is with its fault for
`page`, and which pages may have changed. -/
def Vm.Serves (vm : Vm) (s : SuppPtr) (page : PtePtr) (changed : PtePtr → Prop) : Phase → Prop
  | .acquiring | .waiting | .holding =>
      s = page.1 ∧ getMissingPageFromSupp (vm.supp s) = some page.2 ∧ ∀ q, ¬ changed q
  | .found r | .paging r _ .chosen => r = page ∧ ∀ q, ¬ changed q
  | .paging r _ .invalidated | .paging r _ (.writing _) | .paging r _ .vacated
  | .paging r _ (.reading _) | .paging r _ .loaded | .paging r _ .recorded =>
      r = page ∧ ∃ v, ∀ q, changed q → q = v
  | .mapped => pteEntryIsValid (vm.pte page) = true ∧ ∃ v, ∀ q, changed q → q = page ∨ q = v
  | .user | .terminating | .deallocated | .notified | .stray => True

def Progress (k : Sys) (p : PcbPtr) (page : PtePtr) (changed : PtePtr → Prop) : Prop :=
  ∀ u, k.proc p = some u → k.vm.Serves u.supp page changed u.phase

theorem Vm.Serves.idle {vm : Vm} {s : SuppPtr} {changed : PtePtr → Prop} {φ : Phase}
    (ha : φ.asks = false) (hi : φ.inside = false) : vm.Serves s page changed φ := by
  cases φ with
  | user | terminating | deallocated | notified | stray => trivial
  | acquiring | waiting | holding => exact nomatch ha
  | found _ | paging _ _ _ | mapped => exact nomatch hi

theorem Vm.Serves.asking {vm : Vm} {s : SuppPtr} {changed : PtePtr → Prop} {φ : Phase}
    (ha : φ.asks = true) : vm.Serves s page changed φ ↔
      s = page.1 ∧ getMissingPageFromSupp (vm.supp s) = some page.2 ∧ ∀ q, ¬ changed q := by
  cases φ with
  | acquiring | waiting | holding => exact Iff.rfl
  | user | found _ | paging _ _ _ | mapped | terminating | deallocated | notified | stray =>
      exact nomatch ha

/-- Fewer pages have changed, and the tables are as they were. -/
theorem Vm.Serves.mono {vm vm' : Vm} {s : SuppPtr} {changed changed' : PtePtr → Prop} {φ : Phase}
    (h : vm.Serves s page changed φ) (ha : φ.asks = false)
    (hv : pteEntryIsValid (vm'.pte page) = pteEntryIsValid (vm.pte page))
    (hc : ∀ q, changed' q → changed q) : vm'.Serves s page changed' φ := by
  cases φ with
  | user | terminating | deallocated | notified | stray => trivial
  | acquiring | waiting | holding => exact nomatch ha
  | found r => exact ⟨h.1, fun q hq => h.2 q (hc q hq)⟩
  | mapped =>
      obtain ⟨hvalid, v, hall⟩ := h
      exact ⟨hv.trans hvalid, v, fun q hq => hall q (hc q hq)⟩
  | paging r _ stage =>
      cases stage with
      | chosen => exact ⟨h.1, fun q hq => h.2 q (hc q hq)⟩
      | invalidated | writing _ | vacated | reading _ | loaded | recorded =>
          obtain ⟨hr, v, hall⟩ := h
          exact ⟨hr, v, fun q hq => hall q (hc q hq)⟩

/-! ## Steps of others -/

/-- The step is not one that `p` takes by itself. -/
def Foreign (p : PcbPtr) (e : Event) : Prop := e ≠ .next p ∧ ∀ status, e ≠ .flashDone p status

/-- While `p` is inside, the others leave all pages valid or not. -/
theorem PagerMove.quiet (h : PagerMove k e k') (hk : PagerInv k) (he : Foreign p e)
    (hp : k.Inside p) (q : PtePtr) :
    pteEntryIsValid (k'.vm.pte q) = pteEntryIsValid (k.vm.pte q) := by
  have hself : ∀ {r u}, k.proc r = some u → u.phase.inside = true → r = p := fun hr hu =>
    hk.locks.unique ((inside_iff hr).mpr hu) hp
  cases h with
  | outer hvm _ _ => exact hvm.valid_eq q
  | inner hr hu _ _ => exact absurd (congrArg Event.next (hself hr hu)) he.1
  | @answer r u d status φ hr hu _ _ =>
      exact absurd (congrArg (Event.flashDone · status) (hself hr hu)) (he.2 status)
  | release hr hu =>
      exact absurd (congrArg Event.next (hself hr (by rw [hu]; rfl))) he.1

/-- Who is inside after a step of another was there before, unless it was woken. -/
theorem PagerMove.stays (h : PagerMove k e k') (hk : PagerInv k) (he : Foreign p e)
    (hp : k'.proc p = some u) (hu : u.phase.inside = true) (ha : u.phase.asks = false) :
    k.proc p = some u := by
  have hout : ∀ {r w φ vm}, r ≠ p → k.proc r = some w → w.phase.inside = true →
      ((k.setVm vm).setPhase r w φ).proc p = some u → k.proc p = some u := by
    intro r w φ vm hr hw hin hp
    have hp := (Sys.setPhase_of_ne _ _ _ _ hr.symm).symm.trans hp
    exact hp
  cases h with
  | outer _ _ hproc =>
      rcases hproc p u hp hu with h | ⟨-, h⟩
      · exact h
      · rw [h] at ha
        exact nomatch ha
  | @inner r w vm φ hr hw _ _ =>
      exact hout (fun h => he.1 (congrArg Event.next h)) hr hw hp
  | @answer r w d status φ hr hw _ _ =>
      exact hout (fun h => he.2 status (congrArg (Event.flashDone · status) h)) hr hw hp
  | @release r w hr hw =>
      rcases verhogenSwap_proc hk.locks hp with ⟨rfl, -⟩ | ⟨-, h | ⟨_, _, _, rfl⟩⟩
      · exact absurd rfl he.1
      · exact h
      · cases ha

theorem Progress.other (h : Progress k p page (Changes p tr)) (hk : PagerInv k)
    (hs : step k e = some k') (hown : OwnTable ⟨k, e, k'⟩) (he : Foreign p e)
    (hfault : ∀ saved, e ≠ .fault p saved) :
    Progress k' p page (Changes p (tr ++ [⟨k, e, k'⟩])) := by
  have hout := step_outcome hs
  have hmove := hout.pagerMove hk hown
  have hc : ∀ q, Changes p (tr ++ [⟨k, e, k'⟩]) q → Changes p tr q := by
    intro q hq
    rcases hq.last with hq | ⟨hin, hv⟩
    · exact hq
    · exact absurd (hmove.quiet hk he (hin.resolve_left he.1) q) hv
  intro u hu
  cases ha : u.phase.asks with
  | true =>
      rcases hout.asks hk hu ha with ⟨w, hw, hwa, hsupp, hmiss, -⟩ | ⟨w, saved, hf, -⟩
      · obtain ⟨hs, hm, hno⟩ := (Vm.Serves.asking hwa).mp (h w hw)
        rw [Vm.Serves.asking ha, ← hsupp]
        refine ⟨hs, ?_, fun q hq => hno q (hc q hq)⟩
        rw [hsupp, hmiss, ← hsupp, hm]
      · exact absurd hf (hfault saved)
  | false =>
      cases hi : u.phase.inside with
      | false => exact .idle ha hi
      | true =>
          have hp := hmove.stays hk he hu hi ha
          exact (h u hp).mono ha (hmove.quiet hk he ((inside_iff hp).mpr hi) page) hc

/-! ## Steps of its own -/

/-- `p` moves on, and its fault is served as `φ` says. -/
theorem Progress.move {vm : Vm} {φ : Phase} {changed : PtePtr → Prop}
    (h : vm.Serves u.supp page changed φ) :
    Progress ((k.setVm vm).setPhase p u φ) p page changed := by
  intro v hv
  obtain rfl := Sys.eq_of_setPhase hv
  exact h

theorem Progress.stage {φ : Phase} {changed : PtePtr → Prop}
    (h : k.vm.Serves u.supp page changed φ) : Progress (k.setPhase p u φ) p page changed :=
  show Progress ((k.setVm k.vm).setPhase p u φ) p page changed from .move h

theorem Progress.gone {changed : PtePtr → Prop} : Progress (k.termProcess p) p page changed := by
  intro v hv
  exact nomatch (k.termProcess_self p).symm.trans hv

/-- Nothing changes, so nothing has. -/
theorem Changes.none (h : ∀ q, ¬ Changes p tr q) (hsame : ∀ q, k'.vm.pte q = k.vm.pte q) (q : PtePtr) :
    ¬ Changes p (tr ++ [⟨k, e, k'⟩]) q := fun hq => h q (hq.of_same fun _ => hsame q)

theorem Progress.next (h : Progress k p page (Changes p tr)) (hout : Outcome k (.next p) k') :
    Progress k' p page (Changes p (tr ++ [⟨k, .next p, k'⟩])) := by
  cases hout with
  | @acquire _ u hp hu =>
      obtain ⟨hs, hm, hno⟩ := (Vm.Serves.asking (by rw [hu]; rfl)).mp (h u hp)
      have hasks : (if k.swapSem.value - 1 < 0 then Phase.waiting else .holding).asks = true := by
        split
        · rfl
        · rfl
      refine .stage (k := { k with swapSem := _ }) ?_
      rw [Vm.Serves.asking hasks]
      exact ⟨hs, hm, Changes.none hno fun _ => rfl⟩
  | missing _ _ _ | gone _ _ => exact .gone
  | @find _ u i hp hu hi =>
      obtain ⟨hs, hm, hno⟩ := (Vm.Serves.asking (by rw [hu]; rfl)).mp (h u hp)
      refine .stage ⟨Prod.ext hs ?_, Changes.none hno fun _ => rfl⟩
      exact Option.some.inj (hi.symm.trans hm)
  | @choose _ u r hp hu =>
      obtain ⟨hr, hno⟩ : k.vm.Serves _ _ _ (.found r) := hu ▸ h u hp
      exact .move ⟨hr, Changes.none hno fun _ => rfl⟩
  | @evict _ u r frame v hp hu _ _ =>
      obtain ⟨hr, hno⟩ : k.vm.Serves _ _ _ (.paging r frame .chosen) := hu ▸ h u hp
      refine .move ⟨hr, v, fun q hq => ?_⟩
      rcases eq_or_ne q v with hqv | hqv
      · exact hqv
      · exact absurd (hq.of_same fun _ => k.vm.markInvalid_of_ne v q hqv) (hno q)
  | @skip _ u r frame hp hu _ =>
      obtain ⟨hr, hno⟩ : k.vm.Serves _ _ _ (.paging r frame .chosen) := hu ▸ h u hp
      exact .stage ⟨hr, r, fun q hq => absurd (hq.of_same fun _ => rfl) (hno q)⟩
  | @writeOut _ u r frame q hp hu _ =>
      obtain ⟨hr, v, hall⟩ : k.vm.Serves _ _ _ (.paging r frame .invalidated) := hu ▸ h u hp
      exact .move ⟨hr, v, fun q hq => hall q (hq.of_same fun _ => rfl)⟩
  | @readIn _ u r frame hp hu =>
      obtain ⟨hr, v, hall⟩ : k.vm.Serves _ _ _ (.paging r frame .vacated) := hu ▸ h u hp
      exact .move ⟨hr, v, fun q hq => hall q (hq.of_same fun _ => rfl)⟩
  | @record _ u r frame hp hu =>
      obtain ⟨hr, v, hall⟩ : k.vm.Serves _ _ _ (.paging r frame .loaded) := hu ▸ h u hp
      exact .move ⟨hr, v, fun q hq => hall q (hq.of_same fun _ => rfl)⟩
  | @map _ u r frame hp hu =>
      obtain ⟨rfl, v, hall⟩ : k.vm.Serves _ _ _ (.paging r frame .recorded) := hu ▸ h u hp
      refine .move ⟨k.vm.markValid_valid r, v, fun q hq => ?_⟩
      rcases eq_or_ne q r with hqr | hqr
      · exact .inl hqr
      · exact .inr (hall q (hq.of_same fun _ => k.vm.markValid_of_ne r q hqr))
  | @release _ u hp hu =>
      intro v hv
      obtain rfl := Sys.eq_of_setPhase hv
      trivial
  | dealloc _ _ => exact .stage (k := { k with pool := _ }) trivial
  | notify _ _ => exact .stage (k := k.notifyTerminated) trivial

theorem Progress.flashDone {status : Word} (h : Progress k p page (Changes p tr))
    (hout : Outcome k (.flashDone p status) k') :
    Progress k' p page (Changes p (tr ++ [⟨k, .flashDone p status, k'⟩])) := by
  cases hout with
  | @wrote _ u r frame d _ hp hu =>
      obtain ⟨hr, v, hall⟩ : k.vm.Serves _ _ _ (.paging r frame (.writing d)) := hu ▸ h u hp
      exact .move ⟨hr, v, fun q hq => hall q (hq.of_same fun _ => rfl)⟩
  | @loaded _ u r frame d _ hp hu =>
      obtain ⟨hr, v, hall⟩ : k.vm.Serves _ _ _ (.paging r frame (.reading d)) := hu ▸ h u hp
      exact .move ⟨hr, v, fun q hq => hall q (hq.of_same fun _ => rfl)⟩

theorem Progress.step (h : Progress k p page (Changes p tr)) (hk : PagerInv k)
    (hs : step k e = some k') (hown : OwnTable ⟨k, e, k'⟩)
    (hfault : ∀ saved, e ≠ .fault p saved) :
    Progress k' p page (Changes p (tr ++ [⟨k, e, k'⟩])) := by
  by_cases he : Foreign p e
  · exact h.other hk hs hown he hfault
  · rw [Foreign, not_and_or, not_not, not_forall] at he
    rcases he with rfl | ⟨status, he⟩
    · exact h.next (step_outcome hs)
    · obtain rfl := not_not.mp he
      exact h.flashDone (step_outcome hs)

/-- The `V` at the end. -/
theorem Progress.last (h : Progress k p page (Changes p tr))
    (hs : Phase3.step k (.next p) = some k') (hp : k.proc p = some u) (hu : u.phase = .mapped) :
    pteEntryIsValid (k'.vm.pte page) = true ∧
      ∃ r, ∀ q, Changes p (tr ++ [⟨k, .next p, k'⟩]) q → q = page ∨ q = r := by
  obtain ⟨hvalid, r, hall⟩ : k.vm.Serves u.supp page (Changes p tr) .mapped := hu ▸ h u hp
  simp only [Phase3.step, hp, Option.bind_some, Sys.next, hu, Option.some.injEq] at hs
  subst hs
  exact ⟨hvalid, r, fun q hq => hall q (hq.of_same fun _ => rfl)⟩

/-- A page fault for a page of its own. -/
theorem Progress.fault {saved : State} {i : Fin maxPages}
    (hs : Phase3.step k (.fault p saved) = some k') (hp : k.proc p = some u)
    (hi : getMissingPage (k.vm.supp u.supp) saved.entryHi = some i) :
    Progress k' p (u.supp, i) (Changes p []) := by
  cases step_outcome hs with
  | @fault _ w _ hw hu =>
      obtain rfl : w = u := Option.some.inj (hw.symm.trans hp)
      refine .move ?_
      unfold handlePageFault Pandos.handlePageFault
      dsimp only
      split
      · trivial
      · exact ⟨rfl, (getMissingPageFromSupp_passup ..).trans hi, fun _ => not_changes_nil⟩

/-! ## Runs -/

/-- Page tables and swap table while the lock is free. -/
structure Vm.Consistent (vm : Vm) : Prop where
  occupied : ∀ i, frameIsOccupied (vm.swapTable i) = true → ∃ q,
    (vm.swapTable i).swPte = some q ∧ pteEntryIsValid (vm.pte q) = true ∧
      (vm.pte q).entryLo = framePoolStart + BitVec.ofNat 32 i * pageSize ||| validOn ||| dirtyOn ∧
      (vm.swapTable i).swAsid = (entryHiGetAsid (vm.pte q).entryHi).toNat ∧
      (vm.swapTable i).swPageNo = getPageNum (vm.pte q).entryHi
  valid : ∀ q, pteEntryIsValid (vm.pte q) = true →
    ∃! i, frameIsOccupied (vm.swapTable i) = true ∧ (vm.swapTable i).swPte = some q
  inj : ∀ i j, frameIsOccupied (vm.swapTable i) = true → frameIsOccupied (vm.swapTable j) = true →
    (vm.swapTable i).swPte = (vm.swapTable j).swPte → i = j

theorem Vm.Bijective.consistent {vm : Vm} (h : vm.Bijective none) : vm.Consistent := by
  have hpage : ∀ {i r}, frameIsOccupied (vm.swapTable i) = true →
      (vm.swapTable i).swPte = some r → vm.Linked i r := by
    intro i r hocc hr
    obtain ⟨q, hq⟩ := h.linked i nofun hocc
    obtain rfl : q = r := Option.some.inj (hq.swPte.symm.trans hr)
    exact hq
  constructor
  case occupied =>
    intro i hocc
    obtain ⟨q, hq⟩ := h.linked i nofun hocc
    exact ⟨q, hq.swPte, hq.valid, hq.entryLo, hq.swAsid, hq.swPageNo⟩
  case valid =>
    intro q hv
    obtain ⟨i, -, hi⟩ := h.covered q hv
    refine ⟨i, ⟨hi.occupied, hi.swPte⟩, ?_⟩
    rintro j ⟨hocc, hj⟩
    exact (hpage hocc hj).frame_inj hi
  case inj =>
    intro i j hi hj heq
    obtain ⟨q, hq⟩ := h.linked i nofun hi
    exact hq.frame_inj (hpage hj (heq.symm.trans hq.swPte))

/-- In a run of page faults on pages that are not valid, the tables are
consistent whenever `swapSem` is free.  From its fault `x` to its `V`, which is
`y`, a U-proc makes the page valid and changes one other at most. -/
theorem pager_consistency {m : Machine} {tr : List Entry} (h : Run m tr k)
    (hx : ∀ x ∈ tr, FaultsInvalid x ∧ OwnTable x) :
    (k.swapSem.value = 1 → k.vm.Consistent) ∧
      ∀ {p tr₁ tr₂ x y u v saved i}, tr = tr₁ ++ x :: (tr₂ ++ [y]) →
        x.event = .fault p saved → x.before.proc p = some u →
        getMissingPage (x.before.vm.supp u.supp) saved.entryHi = some i →
        (∀ z ∈ tr₂, ∀ saved, z.event ≠ .fault p saved) →
        y.event = .next p → y.before.proc p = some v → v.phase = .mapped →
          pteEntryIsValid (k.vm.pte (u.supp, i)) = true ∧
            ∃ r, ∀ q, Changes p (tr₂ ++ [y]) q → q = (u.supp, i) ∨ q = r := by
  refine ⟨fun hv => ((h.pager hx).idle hv).consistent, ?_⟩
  rintro p tr₁ tr₂ ⟨k₀, _, k₁⟩ ⟨k₂, _, k₃⟩ u v saved i rfl rfl hu hi hno rfl hv hphase
  obtain ⟨hrun, hs, hrest⟩ := Trace.Run.split h
  obtain ⟨hbetween, hlast, hend⟩ := Trace.Run.split hrest
  have hpager : PagerInv k₁ := by
    have hk₀ := Run.pager hrun fun z hz => hx z (List.mem_append_left _ hz)
    have hx₀ := hx _ (List.mem_append_right _ List.mem_cons_self)
    exact hk₀.step hs hx₀.1 hx₀.2
  have hprog := hbetween.invariant
    (P := fun tr k => PagerInv k ∧ Progress k p (u.supp, i) (Changes p tr))
    (G := fun z => (FaultsInvalid z ∧ OwnTable z) ∧ ∀ saved, z.event ≠ .fault p saved)
    (fun z hz => ⟨hx z (by simp [hz]), hno z hz⟩) ⟨hpager, .fault hs hu hi⟩
    fun hP hs hG => ⟨hP.1.step hs hG.1.1 hG.1.2, hP.2.step hP.1 hs hG.1.2 hG.2⟩
  obtain rfl := hend.eq_of_nil
  exact hprog.2.last hlast hv hphase

end

/-- A U-proc faults on its first page, and is served. -/
theorem pager_consistency_fault : ∃ tr k, Run .zero tr k ∧
    tr.map Trace.Entry.event = [.root 1, .fault 1 (firstFault 0), .next 1, .next 1, .next 1, .next 1,
      .next 1, .flashDone 1 ready, .next 1, .next 1, .next 1] ∧
      k.swapSem.value = 1 ∧ (k.vm.swapTable 0).swAsid = 1 ∧ k.vm.Consistent := by
  have hany : (Trace.exec step Machine.zero.start [.root 1, .fault 1 (firstFault 0), .next 1, .next 1,
      .next 1, .next 1, .next 1, .flashDone 1 ready, .next 1, .next 1, .next 1]).any (fun x =>
        x.2.swapSem.value = 1 ∧ (x.2.vm.swapTable 0).swAsid = 1 ∧
          ∀ z ∈ x.1, FaultsInvalid z ∧ OwnTable z) = true := by
    decide +kernel
  obtain ⟨tr, k, hrun, hevents, h⟩ := Trace.run_of_any hany
  obtain ⟨hv, hasid, hx⟩ := of_decide_eq_true h
  exact ⟨tr, k, hrun, hevents, hv, hasid, (pager_consistency hrun hx).1 hv⟩

end Pandos.Phase3
