/-
# `Pandos.Phase3.Consistency` — swap table and page tables

While `swapSem` is free, each occupied entry of the swap table is linked to a
valid page table entry, and each valid page table entry to an occupied entry
(`Vm.Bijective`).  A U-proc that has passed `swapSem` first cuts one link and
at last makes one, and in between the bijection leaves out the frame it has
chosen (`Vm.During`).  Nobody else touches the tables in the meantime, and the
page a U-proc waits for stays invalid until it has been served.
-/
import Pandos.Phase3.Tables

namespace Pandos.Phase3

namespace Vm

/-! ## Links -/

/-- Entry `i` of the swap table names the page `q`. -/
structure Records (vm : Vm) (i : Fin poolSize) (q : PtePtr) : Prop where
  swPte : (vm.swapTable i).swPte = some q
  swAsid : (vm.swapTable i).swAsid = (entryHiGetAsid (vm.pte q).entryHi).toNat
  swPageNo : (vm.swapTable i).swPageNo = getPageNum (vm.pte q).entryHi
  uproc : UprocAsid (entryHiGetAsid (vm.pte q).entryHi)

/-- The page `q` is in the frame `i`. -/
structure Linked (vm : Vm) (i : Fin poolSize) (q : PtePtr) : Prop extends vm.Records i q where
  entryLo : (vm.pte q).entryLo = frameAddr i ||| validOn ||| dirtyOn

/-- The page `q` is about to leave the frame `i`. -/
structure Evicted (vm : Vm) (i : Fin poolSize) (q : PtePtr) : Prop extends vm.Records i q where
  entryLo : (vm.pte q).entryLo = frameAddr i ||| dirtyOn

/-- Occupied frames and valid pages are linked, apart from one frame. -/
structure Bijective (vm : Vm) (except : Option (Fin poolSize)) : Prop where
  linked : ∀ i, some i ≠ except → frameIsOccupied (vm.swapTable i) = true → ∃ q, vm.Linked i q
  covered : ∀ q, pteEntryIsValid (vm.pte q) = true → ∃ i, some i ≠ except ∧ vm.Linked i q

/-- `q` is a page of a U-proc, and not valid. -/
structure Missing (vm : Vm) (q : PtePtr) : Prop where
  uproc : UprocAsid (entryHiGetAsid (vm.pte q).entryHi)
  invalid : pteEntryIsValid (vm.pte q) = false

variable {vm vm' : Vm} {i j : Fin poolSize} {q r page : PtePtr}

theorem Records.occupied (h : vm.Records i q) : frameIsOccupied (vm.swapTable i) = true := by
  have h1 : 1 ≤ (entryHiGetAsid (vm.pte q).entryHi).toNat := h.uproc.1
  have h8 : (entryHiGetAsid (vm.pte q).entryHi).toNat ≤ 8 := h.uproc.2
  rw [frameIsOccupied, h.swAsid, decide_eq_true_eq]
  omega

theorem Records.congr (h : vm.Records i q) (hs : vm'.swapTable i = vm.swapTable i)
    (hq : (vm'.pte q).entryHi = (vm.pte q).entryHi) : vm'.Records i q where
  swPte := by rw [hs, h.swPte]
  swAsid := by rw [hs, hq, h.swAsid]
  swPageNo := by rw [hs, hq, h.swPageNo]
  uproc := by
    rw [hq]
    exact h.uproc

theorem Linked.congr (h : vm.Linked i q) (hs : vm'.swapTable i = vm.swapTable i)
    (hq : vm'.pte q = vm.pte q) : vm'.Linked i q where
  toRecords := h.toRecords.congr hs (congrArg _ hq)
  entryLo := by rw [hq, h.entryLo]

theorem Linked.valid (h : vm.Linked i q) : pteEntryIsValid (vm.pte q) = true := by
  rw [pteEntryIsValid, h.entryLo, decide_eq_true_eq]
  exact valid_present i

theorem Linked.frame_inj (h : vm.Linked i q) (h' : vm.Linked j q) : i = j :=
  frameAddr_inj (h.entryLo.symm.trans h'.entryLo)

theorem Linked.page_inj (h : vm.Linked i q) (h' : vm.Linked i r) : q = r :=
  Option.some.inj (h.swPte.symm.trans h'.swPte)

theorem Linked.ne_missing (h : vm.Linked i q) (hm : vm.Missing page) : q ≠ page := by
  rintro rfl
  have hv := h.valid
  rw [hm.invalid] at hv
  exact nomatch hv

namespace Bijective

variable {except : Option (Fin poolSize)}

theorem congr (h : vm.Bijective except) (hs : vm'.swapTable = vm.swapTable)
    (hp : ∀ q, vm'.pte q = vm.pte q) : vm'.Bijective except where
  linked i hi hocc := by
    rw [hs] at hocc
    obtain ⟨q, hq⟩ := h.linked i hi hocc
    exact ⟨q, hq.congr (congrFun hs i) (hp q)⟩
  covered q hq := by
    rw [hp] at hq
    obtain ⟨i, hi, hl⟩ := h.covered q hq
    exact ⟨i, hi, hl.congr (congrFun hs i) (hp q)⟩

/-- The victim's link is cut. -/
theorem evict (h : vm.Bijective none) (hq : vm.Linked i q) :
    (vm.markInvalid q).Bijective (some i) ∧ (vm.markInvalid q).Evicted i q := by
  have hself := vm.markInvalid_self q
  have hother : ∀ r, r ≠ q → (vm.markInvalid q).pte r = vm.pte r := vm.markInvalid_of_ne q
  refine ⟨⟨fun j hj hocc => ?_, fun r hr => ?_⟩, hq.toRecords.congr rfl ?_, ?_⟩
  · obtain ⟨r, hr⟩ := h.linked j (by rintro ⟨⟩) hocc
    have hne : r ≠ q := by
      rintro rfl
      exact hj (congrArg some (hr.frame_inj hq))
    exact ⟨r, hr.congr rfl (hother r hne)⟩
  · have hne : r ≠ q := by
      rintro rfl
      rw [hself, pteEntryIsValid, not_valid_invalidated] at hr
      cases hr
    rw [hother r hne] at hr
    obtain ⟨j, -, hl⟩ := h.covered r hr
    refine ⟨j, fun hj => ?_, hl.congr rfl (hother r hne)⟩
    obtain rfl := Option.some.inj hj
    exact hne (hl.page_inj hq)
  · rw [hself]
  · rw [hself]
    show (vm.pte q).entryLo &&& ~~~validOn = _
    rw [hq.entryLo]
    exact present_invalidated i

/-- A frame that is not occupied has no link. -/
theorem skip (h : vm.Bijective none) (hocc : frameIsOccupied (vm.swapTable i) = false) :
    vm.Bijective (some i) where
  linked j _ hj := h.linked j nofun hj
  covered q hq := by
    obtain ⟨j, -, hl⟩ := h.covered q hq
    refine ⟨j, fun hj => ?_, hl⟩
    obtain rfl := Option.some.inj hj
    rw [hl.occupied] at hocc
    exact nomatch hocc

/-- The new page is recorded. -/
theorem record (h : vm.Bijective (some i)) (hm : vm.Missing page) :
    (vm.updateSwapTableEntry i page).Bijective (some i) ∧
      (vm.updateSwapTableEntry i page).Records i page := by
  have hself : (vm.updateSwapTableEntry i page).swapTable i =
      ⟨(entryHiGetAsid (vm.pte page).entryHi).toNat, getPageNum (vm.pte page).entryHi, some page⟩ :=
    Function.update_self ..
  have hother : ∀ j, some j ≠ some i →
      (vm.updateSwapTableEntry i page).swapTable j = vm.swapTable j := fun j hj =>
    Function.update_of_ne (fun e => hj (congrArg some e)) ..
  refine ⟨⟨fun j hj hocc => ?_, fun q hq => ?_⟩, ?_⟩
  · rw [hother j hj] at hocc
    obtain ⟨q, hq⟩ := h.linked j hj hocc
    exact ⟨q, hq.congr (hother j hj) rfl⟩
  · obtain ⟨j, hj, hl⟩ := h.covered q hq
    exact ⟨j, hj, hl.congr (hother j hj) rfl⟩
  · exact ⟨congrArg Swap.swPte hself, congrArg Swap.swAsid hself, congrArg Swap.swPageNo hself,
      hm.uproc⟩

/-- The new link is made. -/
theorem map (h : vm.Bijective (some i)) (hm : vm.Missing page) (hr : vm.Records i page)
    (hi : vm.frameIndexToReplace = i) : (vm.markValidAndUpdateTLB page).Bijective none ∧
      (vm.markValidAndUpdateTLB page).Linked i page := by
  have hself : (vm.markValidAndUpdateTLB page).pte page =
      ⟨(vm.pte page).entryHi, frameAddr i ||| validOn ||| dirtyOn⟩ := by
    rw [← hi]
    exact vm.markValid_self page
  have hother : ∀ r, r ≠ page → (vm.markValidAndUpdateTLB page).pte r = vm.pte r :=
    vm.markValid_of_ne page
  have hnew : (vm.markValidAndUpdateTLB page).Linked i page :=
    ⟨hr.congr rfl (by rw [hself]), by rw [hself]⟩
  refine ⟨⟨fun j _ hocc => ?_, fun q hq => ?_⟩, hnew⟩
  · rcases eq_or_ne j i with rfl | hj
    · exact ⟨page, hnew⟩
    · obtain ⟨q, hq⟩ := h.linked j (fun e => hj (Option.some.inj e)) hocc
      exact ⟨q, hq.congr rfl (hother q (hq.ne_missing hm))⟩
  · rcases eq_or_ne q page with rfl | hne
    · exact ⟨i, nofun, hnew⟩
    · rw [hother q hne] at hq
      obtain ⟨j, -, hl⟩ := h.covered q hq
      exact ⟨j, nofun, hl.congr rfl (hother q hne)⟩

end Bijective

/-! ## Stages of a page fault -/

/-- What holds while a U-proc is between the choice of the frame `i` for
`page` and its last step. -/
def At (vm : Vm) (page : PtePtr) (i : Fin poolSize) : Stage → Prop
  | .chosen => vm.Bijective none
  | .invalidated => vm.Bijective (some i) ∧ ∃ q, vm.Evicted i q
  | .writing d => vm.Bijective (some i) ∧ (∃ q, vm.Evicted i q) ∧
      d = (vm.swapTable i).swAsid - 1 ∧
      vm.dtp d = ⟨framePoolStart + frameAddr i, (vm.swapTable i).swPageNo <<< 8 ||| writeBlk⟩
  | .vacated | .loaded => vm.Bijective (some i)
  | .reading d => vm.Bijective (some i) ∧ d = devNo (vm.pte page).entryHi ∧
      vm.dtp d = ⟨frameAddr i, getPageNum (vm.pte page).entryHi <<< 8 ||| readBlk⟩
  | .recorded => vm.Bijective (some i) ∧ vm.Records i page

/-- What holds in a phase of a U-proc with the support structure `s`. -/
def During (vm : Vm) (s : SuppPtr) : Phase → Prop
  | .holding | .mapped => vm.Bijective none
  | .found page => page.1 = s ∧ vm.Missing page ∧ vm.Bijective none
  | .paging page i stage =>
      page.1 = s ∧ vm.Missing page ∧ vm.frameIndexToReplace = i ∧ vm.At page i stage
  | .user | .acquiring | .waiting | .terminating | .deallocated | .notified | .stray => True

theorem During.bijective {s : SuppPtr} {φ : Phase} (h : vm.During s φ) (hφ : φ.inside = true) :
    ∃ except, vm.Bijective except := by
  cases φ with
  | holding | mapped => exact ⟨_, h⟩
  | found page => exact ⟨_, h.2.2⟩
  | paging page i stage =>
      obtain ⟨-, -, -, ha⟩ := h
      cases stage with
      | chosen | vacated | loaded => exact ⟨_, ha⟩
      | invalidated | writing _ | reading _ | recorded => exact ⟨_, ha.1⟩
  | user | acquiring | waiting | terminating | deallocated | notified | stray => exact nomatch hφ

theorem During.outside {s : SuppPtr} {φ : Phase} (h : φ.inside = false) : vm.During s φ := by
  cases φ with
  | user | acquiring | waiting | terminating | deallocated | notified | stray => trivial
  | holding | mapped | found _ | paging _ _ _ => exact nomatch h

/-! ## Steps of others -/

/-- Nothing changes but tables that have not been in use. -/
structure Grows (vm vm' : Vm) : Prop where
  swapTable : vm'.swapTable = vm.swapTable
  index : vm'.frameIndexToReplace = vm.frameIndexToReplace
  dtp : vm'.dtp = vm.dtp
  pte : ∀ q, vm'.pte q = vm.pte q ∨ (vm.pte q).entryHi = 0 ∧
    pteEntryIsValid (vm.pte q) = false ∧ pteEntryIsValid (vm'.pte q) = false

namespace Grows

theorem of_pte (hs : vm'.swapTable = vm.swapTable)
    (hi : vm'.frameIndexToReplace = vm.frameIndexToReplace) (hd : vm'.dtp = vm.dtp)
    (hp : ∀ q, vm'.pte q = vm.pte q) : vm.Grows vm' := ⟨hs, hi, hd, fun q => .inl (hp q)⟩

theorem valid_eq (h : vm.Grows vm') (q : PtePtr) :
    pteEntryIsValid (vm'.pte q) = pteEntryIsValid (vm.pte q) := by
  rcases h.pte q with heq | ⟨-, hv, hv'⟩
  · rw [heq]
  · rw [hv, hv']

theorem pte_eq (h : vm.Grows vm') (hq : UprocAsid (entryHiGetAsid (vm.pte q).entryHi)) :
    vm'.pte q = vm.pte q := by
  rcases h.pte q with heq | ⟨hz, -, -⟩
  · exact heq
  · rw [hz] at hq
    exact absurd hq (by decide)

theorem records (h : vm.Grows vm') (hr : vm.Records i q) : vm'.Records i q :=
  hr.congr (congrFun h.swapTable i) (congrArg _ (h.pte_eq hr.uproc))

theorem linked (h : vm.Grows vm') (hl : vm.Linked i q) : vm'.Linked i q :=
  hl.congr (congrFun h.swapTable i) (h.pte_eq hl.uproc)

theorem evicted (h : vm.Grows vm') (he : vm.Evicted i q) : vm'.Evicted i q :=
  ⟨h.records he.toRecords, by rw [h.pte_eq he.uproc, he.entryLo]⟩

theorem missing (h : vm.Grows vm') (hm : vm.Missing page) : vm'.Missing page :=
  ⟨by rw [h.pte_eq hm.uproc]; exact hm.uproc, (h.valid_eq page).trans hm.invalid⟩

theorem bijective {except : Option (Fin poolSize)} (h : vm.Grows vm')
    (hb : vm.Bijective except) : vm'.Bijective except where
  linked i hi hocc := by
    rw [h.swapTable] at hocc
    obtain ⟨q, hq⟩ := hb.linked i hi hocc
    exact ⟨q, h.linked hq⟩
  covered q hq := by
    rw [h.valid_eq] at hq
    obtain ⟨i, hi, hl⟩ := hb.covered q hq
    exact ⟨i, hi, h.linked hl⟩

theorem at_ (h : vm.Grows vm') (hm : vm.Missing page) {stage : Stage} (ha : vm.At page i stage) :
    vm'.At page i stage := by
  cases stage with
  | chosen => exact h.bijective ha
  | invalidated =>
      obtain ⟨hb, q, hq⟩ := ha
      exact ⟨h.bijective hb, q, h.evicted hq⟩
  | writing d =>
      obtain ⟨hb, ⟨q, hq⟩, hd, hdtp⟩ := ha
      refine ⟨h.bijective hb, ⟨q, h.evicted hq⟩, ?_, ?_⟩
      · rw [h.swapTable]
        exact hd
      · rw [h.swapTable, h.dtp]
        exact hdtp
  | vacated => exact h.bijective ha
  | reading d =>
      obtain ⟨hb, hd, hdtp⟩ := ha
      refine ⟨h.bijective hb, ?_, ?_⟩
      · rw [h.pte_eq hm.uproc]
        exact hd
      · rw [h.pte_eq hm.uproc, h.dtp]
        exact hdtp
  | loaded => exact h.bijective ha
  | recorded => exact ⟨h.bijective ha.1, h.records ha.2⟩

theorem during (h : vm.Grows vm') {s : SuppPtr} {φ : Phase} (hd : vm.During s φ) :
    vm'.During s φ := by
  cases φ with
  | holding | mapped => exact h.bijective hd
  | found page => exact ⟨hd.1, h.missing hd.2.1, h.bijective hd.2.2⟩
  | paging page i stage =>
      obtain ⟨hs, hm, hi, ha⟩ := hd
      exact ⟨hs, h.missing hm, h.index.trans hi, h.at_ hm ha⟩
  | user | acquiring | waiting | terminating | deallocated | notified | stray => trivial

end Grows

end Vm

/-! ## Steps -/

/-- Before it has looked for its page, a U-proc asks for it. -/
def Phase.asks : Phase → Bool
  | .acquiring | .waiting | .holding => true
  | .user | .found _ | .paging _ _ _ | .mapped | .terminating | .deallocated | .notified
  | .stray => false

/-- A page fault is for a page that is not valid. -/
def FaultsInvalid (x : Entry) : Prop :=
  ∀ p saved u i, x.event = .fault p saved → x.before.proc p = some u →
    getMissingPage (x.before.vm.supp u.supp) saved.entryHi = some i →
      pteEntryIsValid (x.before.vm.pte (u.supp, i)) = false

/-- A new U-proc gets a support structure that has not been used. -/
def OwnTable (x : Entry) : Prop :=
  ∀ p u, x.before.proc p = none → x.after.proc p = some u →
    (x.before.vm.supp u.supp).supAsid = 0

instance (x : Entry) : Decidable (FaultsInvalid x) :=
  match he : x.event with
  | .fault p saved =>
      decidable_of_iff (((x.before.proc p).all fun u =>
        (getMissingPage (x.before.vm.supp u.supp) saved.entryHi).all fun i =>
          !pteEntryIsValid (x.before.vm.pte (u.supp, i))) = true) <| by
        simp only [FaultsInvalid, he, Event.fault.injEq, Option.all_eq_true, Bool.not_eq_true']
        constructor
        · rintro h _ _ u i ⟨rfl, rfl⟩ hp hi
          exact h u hp i hi
        · exact fun h u hp i hi => h p saved u i ⟨rfl, rfl⟩ hp hi
  | .root _ | .spawn _ _ | .store _ _ _ _ | .refill _ _ | .except _ _ | .next _ | .flashDone _ _ =>
      .isTrue fun _ _ _ _ h => nomatch he.symm.trans h

instance (x : Entry) : Decidable (OwnTable x) :=
  decidable_of_iff (∀ p, x.before.proc p = none → ((x.after.proc p).all fun u =>
    (x.before.vm.supp u.supp).supAsid = 0) = true) <| by
    simp only [OwnTable, Option.all_eq_true, decide_eq_true_eq]
    exact forall_congr' fun _ => ⟨fun h u h₀ hu => h h₀ u hu, fun h h₀ u hu => h u h₀ hu⟩

structure PagerInv (k : Sys) : Prop where
  locks : k.Locks
  users : ∃ free, k.Users free
  linked : ∃ except, k.vm.Bijective except
  idle : k.swapSem.value = 1 → k.vm.Bijective none
  during : ∀ {p u}, k.proc p = some u → k.vm.During u.supp u.phase
  asks : ∀ {p u i}, k.proc p = some u → u.phase.asks = true →
    getMissingPageFromSupp (k.vm.supp u.supp) = some i →
      pteEntryIsValid (k.vm.pte (u.supp, i)) = false

/-- How a step changes the tables of the pager. -/
inductive PagerMove (k : Sys) : Event → Sys → Prop where
  | outer {e k'} (hvm : k.vm.Grows k'.vm) (hsem : k'.swapSem.value = 1 → k.swapSem.value = 1)
      (hproc : ∀ r v, k'.proc r = some v → v.phase.inside = true →
        k.proc r = some v ∨ k.vm.Bijective none ∧ v.phase = .holding) : PagerMove k e k'
  | inner {p u vm φ} (hp : k.proc p = some u) (hu : u.phase.inside = true)
      (hin : φ.inside = true) (hφ : vm.During u.supp φ) : PagerMove k (.next p) ((k.setVm vm).setPhase p u φ)
  | answer {p u d status φ} (hp : k.proc p = some u) (hu : u.phase.inside = true)
      (hin : φ.inside = true) (hφ : (k.vm.answer d status).During u.supp φ) :
      PagerMove k (.flashDone p status) ((k.setVm (k.vm.answer d status)).setPhase p u φ)
  | release {p u} (hp : k.proc p = some u) (hu : u.phase = .mapped) :
      PagerMove k (.next p) (k.verhogenSwap p u)

section
variable {k k' : Sys} {p : PcbPtr} {u : Uproc} {e : Event}

namespace PagerInv

theorem bijective (h : PagerInv k) (hp : k.proc p = some u) {φ : Phase} (hu : u.phase = φ)
    (hφ : k.vm.During u.supp φ → k.vm.Bijective none) : k.vm.Bijective none :=
  hφ (hu ▸ h.during hp)

/-- The page that is being looked for is missing. -/
theorem missing (h : PagerInv k) (hp : k.proc p = some u) (hu : u.phase = .holding)
    {i : Fin maxPages} (hi : getMissingPageFromSupp (k.vm.supp u.supp) = some i) :
    k.vm.Missing (u.supp, i) := by
  obtain ⟨free, hk⟩ := h.users
  obtain ⟨heq, hasid⟩ := hk.asid hp (by rw [hu]; rfl)
  have hhi : (k.vm.pte (u.supp, i)).entryHi = pageHi u.asid i := by
    rw [← heq]
    exact (hk.table u.supp).of_asid (heq.symm ▸ hasid) i
  refine ⟨?_, h.asks hp (by rw [hu]; rfl) hi⟩
  rw [hhi, entryHiGetAsid_pageHi hasid]
  exact hasid

/-- Tables that are not in use hold no valid entry. -/
theorem unused (h : PagerInv k) {q : PtePtr} (h0 : (k.vm.supp q.1).supAsid = 0) :
    pteEntryIsValid (k.vm.pte q) = false := by
  obtain ⟨free, hk⟩ := h.users
  obtain ⟨except, hb⟩ := h.linked
  rw [← Bool.not_eq_true]
  intro hv
  obtain ⟨i, -, hl⟩ := hb.covered q hv
  have huproc := hl.uproc
  rcases hk.table q.1 with ⟨-, hz⟩ | ⟨ha, -⟩
  · have hz : (k.vm.pte q).entryHi = 0 := hz q.2
    rw [hz] at huproc
    exact absurd huproc (by decide)
  · rw [h0] at ha
    exact not_uprocAsid_zero ha

end PagerInv

theorem PagerMove.same (hvm : k.vm.Grows k'.vm) (hsem : k'.swapSem = k.swapSem)
    (hproc : ∀ r, r ≠ p → k'.proc r = k.proc r)
    (hp : ∀ v, k'.proc p = some v → v.phase.inside = false) : PagerMove k e k' := by
  refine .outer hvm (fun h => hsem ▸ h) fun r v hv hin => ?_
  rcases eq_or_ne r p with rfl | hr
  · rw [hp v hv] at hin
    exact nomatch hin
  · exact .inl ((hproc r hr).symm.trans hv)

/-- The tables of a new U-proc have not been in use. -/
theorem create_grows (hk : PagerInv k) (p : PcbPtr) (asid : Word) {supp : SuppPtr} (pool : Pool)
    (h0 : (k.vm.supp supp).supAsid = 0) : k.vm.Grows (k.create p asid supp pool).vm := by
  obtain ⟨free, husers⟩ := hk.users
  refine ⟨rfl, rfl, rfl, fun q => ?_⟩
  obtain ⟨s, i⟩ := q
  rcases eq_or_ne s supp with rfl | hs
  · refine .inr ⟨?_, hk.unused h0, ?_⟩
    · rcases husers.table s with ⟨-, hz⟩ | ⟨ha, -⟩
      · exact hz i
      · rw [h0] at ha
        exact absurd ha not_uprocAsid_zero
    · have hnew : (k.create p asid s pool).vm.pte (s, i) = ⟨pageHi asid i, dirtyOn⟩ := by
        rw [Vm.pte, k.create_supp_self p asid s pool]
        rfl
      have hdirty : (dirtyOn : Word) &&& validOn = 0 := by decide
      rw [hnew, pteEntryIsValid, hdirty]
      rfl
  · refine .inl ?_
    rw [Vm.pte, k.create_supp_of_ne p asid supp pool hs, Vm.pte]

theorem PagerMove.stage {φ : Phase} (hp : k.proc p = some u) (hu : u.phase.inside = true)
    (hin : φ.inside = true) (hφ : k.vm.During u.supp φ) :
    PagerMove k (.next p) (k.setPhase p u φ) := @PagerMove.inner k p u k.vm φ hp hu hin hφ

theorem PagerMove.create {asid : Word} (supp : SuppPtr) (pool : Pool) (hk : PagerInv k)
    (hown : OwnTable ⟨k, e, k'⟩) (hp : k.proc p = none)
    (hvm : k'.vm = (k.create p asid supp pool).vm) (hsem : k'.swapSem = k.swapSem)
    (hproc : k'.proc = (k.create p asid supp pool).proc) : PagerMove k e k' := by
  have hself : k'.proc p = some ⟨asid, supp, .user⟩ := by
    rw [hproc, Sys.create_self]
  have hgrows := create_grows hk p asid pool (hown p _ hp hself)
  rw [← hvm] at hgrows
  refine .same hgrows hsem (fun r hr => by rw [hproc, k.create_of_ne p asid supp pool hr]) ?_
  intro v hv
  obtain rfl := Option.some.inj (hself.symm.trans hv)
  rfl

/-- The address that `writeFromPoolToDev` computes. -/
theorem writeAddr : ∀ i : Fin poolSize,
    entryLoGetPfn (frameAddr i ||| dirtyOn) * pageSize = frameAddr i := by
  decide

theorem Outcome.pagerMove (h : Outcome k e k') (hk : PagerInv k)
    (hown : OwnTable ⟨k, e, k'⟩) : PagerMove k e k' := by
  have hrefl : k.vm.Grows k.vm := .of_pte rfl rfl rfl fun _ => rfl
  cases h with
  | @created _ _ supp pool _ _ _ hp => exact .create supp pool hk hown hp rfl rfl rfl
  | @spawned _ _ supp pool _ _ hp => exact .create supp pool hk hown hp rfl rfl rfl
  | allCreated _ _ | rootDown _ _ | rootReturns _ _ => exact .outer hrefl id fun _ _ h _ => .inl h
  | rootEnds _ =>
      refine .outer hrefl (fun hv => ?_) nofun
      have hlen := hk.locks.length
      have hall : k.swapSem.queue.countP (fun _ => true) = k.swapSem.queue.length := by simp
      have hv : k.swapSem.value + (k.swapSem.queue.countP fun _ => true) = 1 := hv
      rw [hall] at hv
      omega
  | store _ _ _ | refill _ _ _ _ _ =>
      exact .outer (.of_pte rfl rfl rfl fun _ => rfl) id fun _ _ h _ => .inl h
  | @refillEnds p _ _ _ _ _ _ _ | @missing p _ _ _ _ | @gone p _ _ _ =>
      refine .same (p := p) hrefl rfl (fun r hr => k.termProcess_of_ne p hr) fun v hv => ?_
      rw [Sys.termProcess_self] at hv
      exact nomatch hv
  | @fault p u saved _ _ =>
      refine .same (p := p) (.of_pte rfl rfl rfl fun q => Vm.passup_pte _ _ _ _ q) rfl
        (fun r hr => Sys.setPhase_of_ne _ _ _ _ hr) fun v hv => ?_
      obtain rfl := Sys.eq_of_setPhase hv
      exact (Phase.ofFate_outside ..).1
  | @except p u saved _ _ =>
      refine .same (p := p) (.of_pte rfl rfl rfl fun q => Vm.passup_pte _ _ _ _ q) rfl
        (fun r hr => Sys.setPhase_of_ne _ _ _ _ hr) fun v hv => ?_
      obtain rfl := Sys.eq_of_setPhase hv
      exact (Phase.ofFate_outside ..).1
  | @dealloc p u _ _ | @notify p u _ _ =>
      refine .same (p := p) hrefl rfl (fun r hr => Sys.setPhase_of_ne _ _ _ _ hr) fun v hv => ?_
      obtain rfl := Sys.eq_of_setPhase hv
      rfl
  | @acquire p u hp hu =>
      have hle := hk.locks.value_le
      refine .outer hrefl (fun hv => ?_) fun r v hv hin => ?_
      · have hv : k.swapSem.value - 1 = 1 := hv
        omega
      · rcases eq_or_ne r p with rfl | hr
        · have hself := (Sys.setPhase_self _ r u _).symm.trans hv
          obtain rfl := Option.some.inj hself
          by_cases hneg : k.swapSem.value - 1 < 0
          · dsimp only at hin
            rw [if_pos hneg] at hin
            exact nomatch hin
          · exact .inr ⟨hk.idle (by omega), if_neg hneg⟩
        · exact .inl ((Sys.setPhase_of_ne _ _ _ _ hr).symm.trans hv)
  | find hp hu hi =>
      refine .stage hp (by rw [hu]; rfl) rfl ⟨rfl, hk.missing hp hu hi, ?_⟩
      exact hk.bijective hp hu id
  | choose hp hu =>
      obtain ⟨hs, hm, hb⟩ : k.vm.During _ (.found _) := hu ▸ hk.during hp
      exact .inner hp (by rw [hu]; rfl) rfl ⟨hs, ⟨hm.uproc, hm.invalid⟩, rfl, hb.congr rfl fun _ => rfl⟩
  | @evict p u page frame q hp hu hocc hq =>
      obtain ⟨hs, hm, hi, hb⟩ : k.vm.During _ (.paging page frame .chosen) := hu ▸ hk.during hp
      obtain ⟨r, hr⟩ := hb.linked frame nofun hocc
      obtain rfl : r = q := Option.some.inj (hr.swPte.symm.trans hq)
      obtain ⟨hb', he⟩ := Vm.Bijective.evict hb hr
      have hpage : (k.vm.markInvalid r).pte page = k.vm.pte page :=
        k.vm.markInvalid_of_ne r page (hr.ne_missing hm).symm
      refine .inner hp (by rw [hu]; rfl) rfl ⟨hs, ⟨?_, ?_⟩, hi, hb', r, he⟩
      · rw [hpage]
        exact hm.uproc
      · rw [hpage]
        exact hm.invalid
  | skip hp hu hocc =>
      obtain ⟨hs, hm, hi, hb⟩ : k.vm.During _ (.paging _ _ .chosen) := hu ▸ hk.during hp
      exact .stage hp (by rw [hu]; rfl) rfl ⟨hs, hm, hi, Vm.Bijective.skip hb hocc⟩
  | @writeOut p u page frame q hp hu hq =>
      obtain ⟨hs, hm, hi, hb, r, hr⟩ : k.vm.During _ (.paging page frame .invalidated) :=
        hu ▸ hk.during hp
      obtain rfl : r = q := Option.some.inj (hr.swPte.symm.trans hq)
      have hdtp : (k.vm.writeFromPoolToDev (k.vm.swapTable frame) r).dtp
          ((k.vm.swapTable frame).swAsid - 1) = ⟨framePoolStart + frameAddr frame,
            (k.vm.swapTable frame).swPageNo <<< 8 ||| writeBlk⟩ := by
        rw [← writeAddr frame, ← hr.entryLo]
        exact Function.update_self ..
      exact .inner hp (by rw [hu]; rfl) rfl ⟨hs, ⟨hm.uproc, hm.invalid⟩, hi,
        hb.congr rfl fun _ => rfl, ⟨r, hr.toRecords.congr rfl rfl, hr.entryLo⟩, rfl, hdtp⟩
  | @readIn p u page frame hp hu =>
      obtain ⟨hs, hm, hi, hb⟩ : k.vm.During _ (.paging page frame .vacated) := hu ▸ hk.during hp
      have hdtp : (k.vm.writeFromDevToPool page).dtp (devNo (k.vm.pte page).entryHi) =
          ⟨frameAddr frame, getPageNum (k.vm.pte page).entryHi <<< 8 ||| readBlk⟩ := by
        rw [← hi]
        exact Function.update_self ..
      exact .inner hp (by rw [hu]; rfl) rfl ⟨hs, ⟨hm.uproc, hm.invalid⟩, hi,
        Vm.Bijective.congr hb rfl fun _ => rfl, rfl, hdtp⟩
  | record hp hu =>
      obtain ⟨hs, hm, hi, hb⟩ : k.vm.During _ (.paging _ _ .loaded) := hu ▸ hk.during hp
      exact .inner hp (by rw [hu]; rfl) rfl ⟨hs, ⟨hm.uproc, hm.invalid⟩, hi, Vm.Bijective.record hb hm⟩
  | map hp hu =>
      obtain ⟨hs, hm, hi, hb, hr⟩ : k.vm.During _ (.paging _ _ .recorded) := hu ▸ hk.during hp
      exact .inner hp (by rw [hu]; rfl) rfl (hb.map hm hr hi).1
  | release hp hu => exact .release hp hu
  | wrote hp hu =>
      obtain ⟨hs, hm, hi, hb, -⟩ : k.vm.During _ (.paging _ _ (.writing _)) := hu ▸ hk.during hp
      exact .answer hp (by rw [hu]; rfl) rfl
        ⟨hs, ⟨hm.uproc, hm.invalid⟩, hi, hb.congr rfl fun _ => rfl⟩
  | loaded hp hu =>
      obtain ⟨hs, hm, hi, hb, -⟩ : k.vm.During _ (.paging _ _ (.reading _)) := hu ▸ hk.during hp
      exact .answer hp (by rw [hu]; rfl) rfl
        ⟨hs, ⟨hm.uproc, hm.invalid⟩, hi, hb.congr rfl fun _ => rfl⟩

/-- Who is inside is alone there. -/
theorem PagerInv.alone (h : PagerInv k) (hp : k.proc p = some u) (hu : u.phase.inside = true)
    {r : PcbPtr} {v : Uproc} (hr : k.proc r = some v) (hne : r ≠ p) : v.phase.inside = false := by
  rw [← Bool.not_eq_true]
  intro hv
  exact hne (h.locks.unique ((inside_iff hr).mpr hv) ((inside_iff hp).mpr hu))

theorem PagerInv.held (h : PagerInv k) (hp : k.proc p = some u) (hu : u.phase.inside = true) :
    k.swapSem.value ≠ 1 := fun hv => h.locks.free hv p ((inside_iff hp).mpr hu)

/-- A step of the process that is inside. -/
theorem PagerInv.within (h : PagerInv k) {vm : Vm} {φ : Phase} (hp : k.proc p = some u)
    (hu : u.phase.inside = true) (hφ : vm.During u.supp φ) {r : PcbPtr} {v : Uproc}
    (hr : ((k.setVm vm).setPhase p u φ).proc r = some v) : vm.During v.supp v.phase := by
  rcases Sys.of_setPhase hr with ⟨rfl, rfl⟩ | ⟨hne, hr⟩
  · exact hφ
  · exact .outside (h.alone hp hu hr hne)

theorem PagerMove.tables (h : PagerMove k e k') (hk : PagerInv k) :
    (k'.swapSem.value = 1 → k'.vm.Bijective none) ∧
      ∀ {r v}, k'.proc r = some v → k'.vm.During v.supp v.phase := by
  cases h with
  | outer hvm hsem hproc =>
      refine ⟨fun hv => hvm.bijective (hk.idle (hsem hv)), fun {r v} hr => ?_⟩
      cases hin : v.phase.inside with
      | false => exact .outside hin
      | true =>
          rcases hproc r v hr hin with hr | ⟨hb, hv⟩
          · exact hvm.during (hk.during hr)
          · rw [hv]
            exact hvm.bijective hb
  | inner hp hu _ hφ => exact ⟨fun hv => absurd hv (hk.held hp hu), fun hr => hk.within hp hu hφ hr⟩
  | answer hp hu _ hφ =>
      exact ⟨fun hv => absurd hv (hk.held hp hu), fun hr => hk.within hp hu hφ hr⟩
  | @release p u hp hu =>
      have hb : k.vm.Bijective none := hk.bijective hp hu id
      refine ⟨fun _ => hb, fun {r v} hr => ?_⟩
      rcases verhogenSwap_proc hk.locks hr with ⟨rfl, rfl⟩ | ⟨-, hr | ⟨w, hw, -, rfl⟩⟩
      · trivial
      · exact hk.during hr
      · exact hb

/-! ## Pages that are asked for -/

theorem getMissingPageFromSupp_passup (vm : Vm) (s : SuppPtr) (saved : State) :
    getMissingPageFromSupp ((vm.passup s pgFaultExcept saved).supp s) =
      getMissingPage (vm.supp s) saved.entryHi := by
  simp [getMissingPageFromSupp, Vm.passup, getMissingPage]

theorem Phase.asks_uses {φ : Phase} (h : φ.asks = true) : φ.uses = true := by
  cases φ with
  | acquiring | waiting | holding => rfl
  | user | found _ | paging _ _ _ | mapped | terminating | deallocated | notified | stray =>
      exact nomatch h

theorem handleSupportLevelExceptions_asks (s : Support) :
    (handleSupportLevelExceptions s).asks = false := by
  have hpages := handleSupportLevelExceptions_ne_pages s.supExceptState
  unfold handleSupportLevelExceptions
  cases hf : Pandos.handleSupportLevelExceptions s.supExceptState with
  | sysTerminate | returns => rfl
  | pages => exact absurd hf hpages
  | serves c =>
      cases c with
      | terminateSupport | getTOD => rfl
      | writeToPrinter | writeToTerminal | readFromTerminal =>
          simp only [Phase.ofFate]
          split
          · rfl
          · rfl

/-- `r` asked already, for the same page, and none of its pages has become valid. -/
def StillAsks (k k' : Sys) (r : PcbPtr) (v : Uproc) : Prop :=
  ∃ u, k.proc r = some u ∧ u.phase.asks = true ∧ u.supp = v.supp ∧
    getMissingPageFromSupp (k'.vm.supp v.supp) = getMissingPageFromSupp (k.vm.supp v.supp) ∧
      ∀ i, pteEntryIsValid (k'.vm.pte (v.supp, i)) = true →
        pteEntryIsValid (k.vm.pte (v.supp, i)) = true

/-- The step is the page fault of `r`. -/
def BeginsFault (k : Sys) (e : Event) (k' : Sys) (r : PcbPtr) (v : Uproc) : Prop :=
  ∃ u saved, e = .fault r saved ∧ k.proc r = some u ∧ u.supp = v.supp ∧
    getMissingPageFromSupp (k'.vm.supp v.supp) = getMissingPage (k.vm.supp v.supp) saved.entryHi ∧
      ∀ i, k'.vm.pte (v.supp, i) = k.vm.pte (v.supp, i)

theorem StillAsks.of_supp {r : PcbPtr} {v w : Uproc} (hr : k.proc r = some w)
    (hw : w.phase.asks = true) (hs : w.supp = v.supp)
    (h : k'.vm.supp v.supp = k.vm.supp v.supp) : StillAsks k k' r v := by
  refine ⟨w, hr, hw, hs, by rw [h], fun i hv => ?_⟩
  rwa [Vm.pte, h] at hv

/-- A process other than `p` asks, and the step is one of `p`. -/
theorem StillAsks.other {r : PcbPtr} {v : Uproc} (hr : k'.proc r = some v)
    (hv : v.phase.asks = true) (hother : ∀ r, r ≠ p → k'.proc r = k.proc r)
    (hp : ∀ w, k'.proc p = some w → w.phase.asks = false)
    (h : r ≠ p → k.proc r = some v → k'.vm.supp v.supp = k.vm.supp v.supp) :
    StillAsks k k' r v := by
  have hne : r ≠ p := by
    rintro rfl
    rw [hp v hr] at hv
    exact nomatch hv
  have hr' := (hother r hne).symm.trans hr
  exact .of_supp hr' hv rfl (h hne hr')

theorem StillAsks.move {r : PcbPtr} {v : Uproc} {φ : Phase} {vm : Vm}
    (hr : ((k.setVm vm).setPhase p u φ).proc r = some v) (hv : v.phase.asks = true)
    (hφ : φ.asks = false) (hvm : vm.supp = k.vm.supp) :
    StillAsks k ((k.setVm vm).setPhase p u φ) r v := by
  refine .other hr hv (fun r hne => Sys.setPhase_of_ne _ _ _ _ hne) (fun w hw => ?_)
    fun _ _ => congrFun hvm v.supp
  obtain rfl := Sys.eq_of_setPhase hw
  exact hφ

/-- A page table entry changes that is not valid then, or not of `r`. -/
theorem StillAsks.stage {r : PcbPtr} {v : Uproc} {φ : Phase}
    (hr : (k.setPhase p u φ).proc r = some v) (hv : v.phase.asks = true) (hφ : φ.asks = false) :
    StillAsks k (k.setPhase p u φ) r v :=
  @StillAsks.move _ _ _ r v φ k.vm hr hv hφ rfl

theorem StillAsks.setPte {r : PcbPtr} {v : Uproc} {φ : Phase} {vm : Vm} {q : PtePtr} {lo : Word}
    (hr : ((k.setVm vm).setPhase p u φ).proc r = some v) (hv : v.phase.asks = true)
    (hφ : φ.asks = false) (hvm : vm.supp = (k.vm.setPte q { k.vm.pte q with entryLo := lo }).supp)
    (hq : r ≠ p → k.proc r = some v →
      pteEntryIsValid ⟨(k.vm.pte q).entryHi, lo⟩ = false ∨ v.supp ≠ q.1) :
    StillAsks k ((k.setVm vm).setPhase p u φ) r v := by
  have hne : r ≠ p := by
    rintro rfl
    obtain rfl := Sys.eq_of_setPhase hr
    rw [hφ] at hv
    exact nomatch hv
  have hr' := (Sys.setPhase_of_ne _ _ _ _ hne).symm.trans hr
  have hkeeps : k.vm.Keeps vm := .setPte hvm
  refine ⟨v, hr', hv, rfl, hkeeps.getMissingPageFromSupp ?_, fun i hi => ?_⟩
  · rw [hvm, Vm.setPte_supExceptState]
  · have hpte : vm.pte (v.supp, i) =
        (k.vm.setPte q { k.vm.pte q with entryLo := lo }).pte (v.supp, i) := by
      rw [Vm.pte, hvm]
      rfl
    have hi : pteEntryIsValid (vm.pte (v.supp, i)) = true := hi
    rw [hpte] at hi
    rcases eq_or_ne (v.supp, i) q with heq | hneq
    · rcases hq hne hr' with hinv | hsupp
      · rw [heq, Vm.pte_setPte_self, hinv] at hi
        exact nomatch hi
      · exact absurd (congrArg Prod.fst heq) hsupp
    · rwa [Vm.pte_setPte_of_ne _ _ _ _ hneq] at hi

theorem StillAsks.create {r : PcbPtr} {v : Uproc} {asid : Word} {supp : SuppPtr} {pool : Pool}
    (hk : PagerInv k) (halloc : k.pool.allocSupp = (some supp, pool))
    (hvm : k'.vm = (k.create p asid supp pool).vm)
    (hproc : k'.proc = (k.create p asid supp pool).proc) (hr : k'.proc r = some v)
    (hv : v.phase.asks = true) : StillAsks k k' r v := by
  obtain ⟨free, husers⟩ := hk.users
  have htop := husers.pool.allocSupp.1
  rw [halloc] at htop
  refine .other (p := p) hr hv (fun r hne => by rw [hproc, k.create_of_ne p asid supp pool hne])
    (fun w hw => ?_) fun _ hr' => ?_
  · rw [hproc, Sys.create_self] at hw
    obtain rfl := Option.some.inj hw
    rfl
  · rw [hvm]
    refine k.create_supp_of_ne p asid supp pool fun hs => ?_
    exact husers.busy hr' (Phase.asks_uses hv) (hs ▸ List.mem_of_head? htop.symm)

theorem StillAsks.gone {r : PcbPtr} {v : Uproc} (hr : (k.termProcess p).proc r = some v)
    (hv : v.phase.asks = true) : StillAsks k (k.termProcess p) r v := by
  refine .other (p := p) hr hv (fun r hne => k.termProcess_of_ne p hne) (fun w hw => ?_)
    fun _ _ => rfl
  rw [Sys.termProcess_self] at hw
  exact nomatch hw

/-- Who asks has asked before, or its page fault is this step. -/
theorem Outcome.asks (h : Outcome k e k') (hk : PagerInv k) {r : PcbPtr} {v : Uproc}
    (hr : k'.proc r = some v) (hv : v.phase.asks = true) :
    StillAsks k k' r v ∨ BeginsFault k e k' r v := by
  obtain ⟨free, husers⟩ := hk.users
  -- the support structures of `r` and of the process `p` that moves differ
  have hdiff : ∀ {p : PcbPtr} {u : Uproc}, k.proc p = some u → u.phase.uses = true → r ≠ p →
      k.proc r = some v → v.supp ≠ u.supp := fun hp hu hne hr' hs =>
    hne (husers.inj hr' hp (Phase.asks_uses hv) hu hs)
  cases h with
  | created _ _ halloc _ | spawned _ halloc _ => exact .inl (.create hk halloc rfl rfl hr hv)
  | allCreated _ _ | rootDown _ _ | rootReturns _ _ | store _ _ _ | refill _ _ _ _ _ =>
      exact .inl (.of_supp (v := v) hr hv rfl rfl)
  | rootEnds _ => cases hr
  | refillEnds _ _ _ _ _ | missing _ _ _ | gone _ _ => exact .inl (.gone hr hv)
  | @fault p u saved hp hu =>
      rcases Sys.of_setPhase hr with ⟨rfl, rfl⟩ | ⟨hne, hr⟩
      · exact .inr ⟨u, saved, rfl, hp, rfl, getMissingPageFromSupp_passup ..,
          fun i => Vm.passup_pte ..⟩
      · refine .inl (.of_supp (v := v) hr hv rfl ?_)
        exact Function.update_of_ne (hdiff hp (by rw [hu]; rfl) hne hr) ..
  | @except p u saved hp hu =>
      refine .inl (.other (p := p) hr hv (fun r hne => Sys.setPhase_of_ne _ _ _ _ hne)
        (fun w hw => ?_) fun hne hr' => ?_)
      · obtain rfl := Sys.eq_of_setPhase hw
        exact handleSupportLevelExceptions_asks _
      · exact Function.update_of_ne (hdiff hp (by rw [hu]; rfl) hne hr') ..
  | @acquire p u hp hu =>
      rcases Sys.of_setPhase hr with ⟨rfl, rfl⟩ | ⟨-, hr⟩
      · exact .inl (.of_supp hp (by rw [hu]; rfl) rfl rfl)
      · exact .inl (.of_supp (v := v) hr hv rfl rfl)
  | find _ _ _ | skip _ _ _ => exact .inl (.stage hr hv rfl)
  | choose _ _ | writeOut _ _ _ | readIn _ _ | record _ _ | wrote _ _ | loaded _ _ =>
      exact .inl (.move hr hv rfl rfl)
  | evict _ _ _ _ =>
      refine .inl (.setPte hr hv rfl rfl fun _ _ => .inl ?_)
      rw [pteEntryIsValid, not_valid_invalidated]
      rfl
  | @map p u page frame hp hu =>
      obtain ⟨hs, -⟩ : k.vm.During u.supp (.paging page frame .recorded) := hu ▸ hk.during hp
      refine .inl (.setPte hr hv rfl rfl fun hne hr' => .inr ?_)
      rw [hs]
      exact hdiff hp (by rw [hu]; rfl) hne hr'
  | @release p u hp hu =>
      rcases verhogenSwap_proc hk.locks hr with ⟨rfl, rfl⟩ | ⟨-, hr | ⟨w, hw, hwait, rfl⟩⟩
      · cases hv
      · exact .inl (.of_supp (v := v) hr hv rfl rfl)
      · exact .inl (.of_supp hw (by rw [hwait]; rfl) rfl rfl)
  | @dealloc p u _ _ | @notify p u _ _ =>
      refine .inl (.other (p := p) hr hv (fun r hne => Sys.setPhase_of_ne _ _ _ _ hne)
        (fun w hw => ?_) fun _ _ => rfl)
      obtain rfl := Sys.eq_of_setPhase hw
      rfl

/-! ## Runs -/

theorem PagerMove.linked (h : PagerMove k e k') (hk : PagerInv k) :
    ∃ except, k'.vm.Bijective except := by
  cases h with
  | outer hvm _ _ =>
      obtain ⟨except, hb⟩ := hk.linked
      exact ⟨except, hvm.bijective hb⟩
  | inner _ _ hin hφ | answer _ _ hin hφ => exact hφ.bijective hin
  | release _ _ => exact hk.linked

theorem PagerInv.step (hk : PagerInv k) (hs : step k e = some k')
    (hfault : FaultsInvalid ⟨k, e, k'⟩) (hown : OwnTable ⟨k, e, k'⟩) : PagerInv k' := by
  obtain ⟨free, husers⟩ := hk.users
  have hout := step_outcome hs
  have hmove := hout.pagerMove hk hown
  refine ⟨(hout.lockMove hk.locks).locks hk.locks, (hout.useMove hk.locks).users husers,
    hmove.linked hk, (hmove.tables hk).1, (hmove.tables hk).2, fun {r v i} hr hv hi => ?_⟩
  rcases hout.asks hk hr hv with ⟨u, hu, hasks, hsupp, hmiss, hgrow⟩ |
    ⟨u, saved, he, hu, hsupp, hmiss, hpte⟩
  · rw [hmiss, ← hsupp] at hi
    have hinv := hk.asks hu hasks hi
    rw [hsupp] at hinv
    rw [← Bool.not_eq_true]
    intro hvalid
    rw [hgrow i hvalid] at hinv
    exact nomatch hinv
  · rw [hmiss, ← hsupp] at hi
    rw [hpte, ← hsupp]
    exact hfault r saved u i he hu hi

theorem Machine.start_pager (m : Machine) : PagerInv m.start := by
  have hb : m.start.vm.Bijective none := by
    constructor
    case linked =>
      intro i _ hocc
      exact nomatch hocc
    case covered =>
      intro q hv
      have h0 : pteEntryIsValid ⟨0, 0⟩ = true := hv
      rw [not_valid_zero] at h0
      exact nomatch h0
  exact ⟨m.start_locks, ⟨_, m.start_users⟩, ⟨_, hb⟩, fun _ => hb, nofun, nofun⟩

theorem Run.pager {m : Machine} {tr : List Entry} (h : Run m tr k)
    (hx : ∀ x ∈ tr, FaultsInvalid x ∧ OwnTable x) : PagerInv k :=
  h.invariant (P := fun _ k => PagerInv k) hx m.start_pager
    fun hk hs hx => hk.step hs hx.1 hx.2

end

end Pandos.Phase3
