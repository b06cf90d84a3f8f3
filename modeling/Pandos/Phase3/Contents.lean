/-
# `Pandos.Phase3.Contents` — what is in a page

A page of a U-proc is on its flash device, or in a frame, or on its way out of
one.  `Stored` says that the copy is what it should be: the flash block of a
page that is not valid holds what the page held when it was last evicted, or
the image the device came with.

## What is proved

`writeFromPoolToDev` adds `FRAMEPOOLSTART` to an address that contains it
already, so that the device copies from a physical page behind the pool
(`writtenNo`) and not from the frame.  `contents_kept` has two parts, for
every run of `test_phase_3` whose steps all meet `Pages`:

* A page that is brought in holds what it held when it was last evicted, or
  the image on its device if it never was, provided that every step of the run
  meets `Mirrors` as well.
* A victim is always written to the block it came from, and never from an
  address in the pool.  This part needs no `Mirrors`.

The two conditions are on single steps:

    Pages       faults are on pages that are not valid, a new U-proc has a page
                table and a flash device that nobody has had, and the devices
                report no errors
    Mirrors     when a write-back completes, the page behind the pool holds the
                same words as the frame

`Pages` is what the pager is for.  `Mirrors` is a matter of luck, and nothing
in the code sees to it: with other words behind the pool the first page comes
back changed (`contents_lost`).

## What it is not

It speaks of frames and blocks, not of what a U-proc has stored: between two
faults a frame may change through any valid entry, and whose words those are is
left to `Pandos.Phase3.VirtualMemory`.  It says nothing of a device that fails,
where the page is entered all the same (`Pandos.Phase3.FlashErrors`).
-/
import Pandos.Phase3.Consistency

namespace Pandos.Phase3

/-! ## Addresses -/

/-- The physical page of the frame `i`. -/
def frameNo (i : Fin poolSize) : Nat := (frameAddr i >>> 12).toNat

/-- The physical page `writeFromPoolToDev` gives to the device for the frame `i`. -/
def writtenNo (i : Fin poolSize) : Nat := ((framePoolStart + frameAddr i) >>> 12).toNat

theorem frameNo_inj : ∀ {i j : Fin poolSize}, frameNo i = frameNo j → i = j := by
  decide +kernel

theorem writtenNo_ne : ∀ i j : Fin poolSize, writtenNo i ≠ frameNo j := by
  decide +kernel

/-- A valid page table entry leads to its frame. -/
theorem entryLoGetPfn_frame : ∀ i : Fin poolSize,
    (entryLoGetPfn (frameAddr i ||| validOn ||| dirtyOn)).toNat = frameNo i := by
  decide +kernel

private theorem block_fields : ∀ i : Fin maxPages,
    (((BitVec.ofNat 32 i : Word) <<< 8 ||| readBlk) >>> 8).toNat = i ∧
      ((BitVec.ofNat 32 i : Word) <<< 8 ||| readBlk) &&& 0xFF = readBlk ∧
      (((BitVec.ofNat 32 i : Word) <<< 8 ||| writeBlk) >>> 8).toNat = i ∧
      ((BitVec.ofNat 32 i : Word) <<< 8 ||| writeBlk) &&& 0xFF = writeBlk := by
  decide +kernel

namespace Vm

variable {vm : Vm} {d : Int} {f : Fin poolSize} {i : Fin maxPages}

theorem answer_read (h : vm.dtp d = ⟨frameAddr f, BitVec.ofNat 32 i <<< 8 ||| readBlk⟩) :
    vm.answer d ready = { vm with ram := Function.update vm.ram (frameNo f) (vm.flash d i) } := by
  obtain ⟨hblock, hcommand, -, -⟩ := block_fields i
  have hne : readBlk ≠ writeBlk := by decide
  simp only [answer, h, hblock, hcommand, and_self, if_true, true_and, if_neg hne]
  rfl

theorem answer_write
    (h : vm.dtp d = ⟨framePoolStart + frameAddr f, BitVec.ofNat 32 i <<< 8 ||| writeBlk⟩) :
    vm.answer d ready = { vm with
      flash := Function.update vm.flash d
        (Function.update (vm.flash d) i (vm.ram (writtenNo f))) } := by
  obtain ⟨-, -, hblock, hcommand⟩ := block_fields i
  have hne : writeBlk ≠ readBlk := by decide
  simp only [answer, h, hblock, hcommand, and_self, if_true, true_and, if_neg hne]
  rfl

theorem poke_of_ne (vm : Vm) {n frame : Nat} (offset : Fin 1024) (v : Word) (h : n ≠ frame) :
    (vm.poke frame offset v).ram n = vm.ram n := Function.update_of_ne h ..

end Vm

/-! ## Evictions -/

/-- The frame whose page is about to be evicted. -/
def Phase.victim : Phase → Option (Fin poolSize)
  | .paging _ f .chosen => some f
  | .paging _ _ .invalidated | .paging _ _ (.writing _) | .paging _ _ .vacated
  | .paging _ _ (.reading _) | .paging _ _ .loaded | .paging _ _ .recorded | .user | .acquiring
  | .waiting | .holding | .found _ | .mapped | .terminating | .deallocated | .notified
  | .stray => none

/-- The frame whose page has been evicted, and is not yet on its device. -/
def Phase.flight : Phase → Option (Fin poolSize)
  | .paging _ f .invalidated | .paging _ f (.writing _) => some f
  | .paging _ _ .chosen | .paging _ _ .vacated | .paging _ _ (.reading _) | .paging _ _ .loaded
  | .paging _ _ .recorded | .user | .acquiring | .waiting | .holding | .found _ | .mapped
  | .terminating | .deallocated | .notified | .stray => none

/-- The contents of the page `q`, if the step evicts it. -/
def evicts (q : PtePtr) (x : Entry) : Option Page :=
  match x.event with
  | .next p => (x.before.proc p).bind fun u => u.phase.victim.bind fun f =>
      if frameIsOccupied (x.before.vm.swapTable f) ∧ (x.before.vm.swapTable f).swPte = some q then
        some (x.before.vm.ram (frameNo f))
      else none
  | .root _ | .spawn _ _ | .store _ _ _ _ | .refill _ _ | .fault _ _ | .except _ _
  | .flashDone _ _ => none

/-- The contents of the page `q` when it was last evicted, if ever. -/
def lastEvicted (tr : List Entry) (q : PtePtr) : Option Page :=
  tr.foldl (fun c x => (evicts q x).or c) none

def Sys.InFlight (k : Sys) (f : Fin poolSize) : Prop :=
  ∃ p u, k.proc p = some u ∧ u.phase.flight = some f

theorem lastEvicted_snoc (tr : List Entry) (x : Entry) (q : PtePtr) :
    lastEvicted (tr ++ [x]) q = (evicts q x).or (lastEvicted tr q) := by
  simp [lastEvicted]

theorem Phase.flight_inside {φ : Phase} {f : Fin poolSize} (h : φ.flight = some f) :
    φ.inside = true := by
  cases φ with
  | paging _ _ _ => rfl
  | user | acquiring | waiting | holding | found _ | mapped | terminating | deallocated | notified
  | stray => exact nomatch h

/-! ## Steps -/

/-- A new U-proc has an ASID, and so a flash device, that nobody has had. -/
def OwnAsid (x : Entry) : Prop :=
  ∀ p u, x.before.proc p = none → x.after.proc p = some u →
    ∀ s, (x.before.vm.supp s).supAsid ≠ u.asid

/-- The flash devices succeed. -/
def Succeeds (x : Entry) : Prop := ∀ p status, x.event = .flashDone p status → status = ready

instance (x : Entry) : Decidable (OwnAsid x) :=
  decidable_of_iff (∀ p, x.before.proc p = none → ((x.after.proc p).all fun u =>
    ∀ s, (x.before.vm.supp s).supAsid ≠ u.asid) = true) <| by
    simp only [OwnAsid, Option.all_eq_true, decide_eq_true_eq]
    exact forall_congr' fun _ => ⟨fun h u h₀ hu => h h₀ u hu, fun h h₀ u hu => h u h₀ hu⟩

/-- Page faults of U-procs that have tables and flash devices of their own. -/
structure Pages (x : Entry) : Prop where
  invalid : FaultsInvalid x
  table : OwnTable x
  asid : OwnAsid x
  succeeds : Succeeds x

/-- When a victim is written back, the physical page behind the pool holds the
same as its frame. -/
def Mirrors (x : Entry) : Prop :=
  ∀ p status u page f d, x.event = .flashDone p status → x.before.proc p = some u →
    u.phase = .paging page f (.writing d) →
      x.before.vm.ram (writtenNo f) = x.before.vm.ram (frameNo f)

instance (x : Entry) : Decidable (Mirrors x) :=
  match he : x.event with
  | .flashDone p _ =>
      decidable_of_iff (((x.before.proc p).all fun u => match u.phase with
        | .paging _ f (.writing _) => x.before.vm.ram (writtenNo f) = x.before.vm.ram (frameNo f)
        | _ => true) = true) <| by
        simp only [Mirrors, he, Event.flashDone.injEq, Option.all_eq_true]
        constructor
        · rintro h _ _ u page f d ⟨rfl, rfl⟩ hp hu
          have hf := h u hp
          rw [hu] at hf
          exact of_decide_eq_true hf
        · intro h u hp
          split
          next page f d hu => exact decide_eq_true (h p _ u page f d ⟨rfl, rfl⟩ hp hu)
          next => rfl
  | .root _ | .spawn _ _ | .store _ _ _ _ | .refill _ _ | .fault _ _ | .except _ _ | .next _ =>
      .isTrue fun _ _ _ _ _ _ h => nomatch he.symm.trans h

/-- How a step changes what is in the frames and on the devices. -/
inductive DataMove (k : Sys) : Event → Sys → Prop where
  | keep {e k'} (hflash : k'.vm.flash = k.vm.flash) (hflight : ∀ f, k'.InFlight f ↔ k.InFlight f)
      (hframe : ∀ f, k.InFlight f → k'.vm.ram (frameNo f) = k.vm.ram (frameNo f) ∧
        (k'.vm.swapTable f).swPte = (k.vm.swapTable f).swPte)
      (hvalid : ∀ q, pteEntryIsValid (k.vm.pte q) = true → pteEntryIsValid (k'.vm.pte q) = true)
      (hno : ∀ q, evicts q ⟨k, e, k'⟩ = none) : DataMove k e k'
  | evict {p u page f q} (hp : k.proc p = some u) (hu : u.phase = .paging page f .chosen)
      (hocc : frameIsOccupied (k.vm.swapTable f) = true)
      (hq : (k.vm.swapTable f).swPte = some q) :
      DataMove k (.next p)
        ((k.setVm (k.vm.markInvalid q)).setPhase p u (.paging page f .invalidated))
  | wrote {p u page f d} (hp : k.proc p = some u)
      (hu : u.phase = .paging page f (.writing d)) :
      DataMove k (.flashDone p ready)
        ((k.setVm (k.vm.answer d ready)).setPhase p u (.paging page f .vacated))
  | ends {e k'} (hproc : ∀ p, k'.proc p = none) (hsupp : k'.vm = k.vm)
      (hno : ∀ q, evicts q ⟨k, e, k'⟩ = none) : DataMove k e k'

section
variable {k k' : Sys} {p : PcbPtr} {u : Uproc} {e : Event} {f : Fin poolSize}

theorem inFlight_of_proc (hproc : k'.proc = k.proc) (f : Fin poolSize) :
    k'.InFlight f ↔ k.InFlight f := by
  rw [Sys.InFlight, hproc, Sys.InFlight]

/-- One process moves. -/
theorem inFlight_move (hother : ∀ r, r ≠ p → k'.proc r = k.proc r)
    (hp : ∀ u, k.proc p = some u → u.phase.flight = none)
    (hp' : ∀ v, k'.proc p = some v → v.phase.flight = none) (f : Fin poolSize) :
    k'.InFlight f ↔ k.InFlight f := by
  constructor
  · rintro ⟨r, v, hv, hf⟩
    rcases eq_or_ne r p with rfl | hr
    · exact nomatch (hp' v hv).symm.trans hf
    · exact ⟨r, v, (hother r hr).symm.trans hv, hf⟩
  · rintro ⟨r, v, hv, hf⟩
    rcases eq_or_ne r p with rfl | hr
    · exact nomatch (hp v hv).symm.trans hf
    · exact ⟨r, v, (hother r hr).trans hv, hf⟩

/-- While somebody else is inside nothing is in flight. -/
theorem PagerInv.not_inFlight (h : PagerInv k) (hp : k.proc p = some u)
    (hu : u.phase.inside = true) (hf : u.phase.flight = none) : ¬ k.InFlight f := by
  rintro ⟨r, v, hv, hvf⟩
  rcases eq_or_ne r p with rfl | hr
  · obtain rfl := Option.some.inj (hp.symm.trans hv)
    exact nomatch hf.symm.trans hvf
  · have hout := h.alone hp hu hv hr
    rw [Phase.flight_inside hvf] at hout
    exact nomatch hout

theorem evicts_of_event (h : ∀ p, e ≠ .next p) (q : PtePtr) : evicts q ⟨k, e, k'⟩ = none := by
  cases e with
  | next p => exact absurd rfl (h p)
  | root _ | spawn _ _ | store _ _ _ _ | refill _ _ | fault _ _ | except _ _ | flashDone _ _ => rfl

theorem evicts_next (hp : k.proc p = some u) (hu : u.phase.victim = none) (q : PtePtr) :
    evicts q ⟨k, .next p, k'⟩ = none := by
  simp [evicts, hp, hu]

theorem Phase.flight_outside {φ : Phase} (h : φ.inside = false) : φ.flight = none := by
  cases φ with
  | user | acquiring | waiting | terminating | deallocated | notified | stray => rfl
  | holding | found _ | paging _ _ _ | mapped => exact nomatch h

theorem inFlight_setPhase {φ : Phase} (hp : k.proc p = some u)
    (hproc : k'.proc = (k.setPhase p u φ).proc) (hφ : φ.flight = u.phase.flight)
    (f : Fin poolSize) : k'.InFlight f ↔ k.InFlight f := by
  constructor
  · rintro ⟨r, v, hv, hf⟩
    rw [hproc] at hv
    rcases Sys.of_setPhase hv with ⟨rfl, rfl⟩ | ⟨-, hv⟩
    · exact ⟨r, u, hp, hφ.symm.trans hf⟩
    · exact ⟨r, v, hv, hf⟩
  · rintro ⟨r, v, hv, hf⟩
    rcases eq_or_ne r p with rfl | hr
    · obtain rfl := Option.some.inj (hp.symm.trans hv)
      refine ⟨r, { u with phase := φ }, ?_, hφ.trans hf⟩
      rw [hproc, Sys.setPhase_self]
    · refine ⟨r, v, ?_, hf⟩
      rw [hproc, k.setPhase_of_ne p u φ hr, hv]

/-- What the pager knows of a frame in flight. -/
theorem PagerInv.flight (h : PagerInv k) (hf : k.InFlight f) :
    k.vm.Bijective (some f) ∧ ∃ q, k.vm.Evicted f q := by
  obtain ⟨r, v, hv, hvf⟩ := hf
  have hd := h.during hv
  cases hphase : v.phase with
  | paging page i stage =>
      rw [hphase] at hvf hd
      obtain ⟨-, -, -, ha⟩ := hd
      cases stage with
      | invalidated =>
          obtain rfl := Option.some.inj hvf
          exact ha
      | writing d =>
          obtain rfl := Option.some.inj hvf
          exact ⟨ha.1, ha.2.1⟩
      | chosen | vacated | reading _ | loaded | recorded => exact nomatch hvf
  | user | acquiring | waiting | holding | found _ | mapped | terminating | deallocated | notified
  | stray =>
      rw [hphase] at hvf
      exact nomatch hvf

/-- The fields of a page of a U-proc. -/
theorem PagerInv.fields (h : PagerInv k) {q : PtePtr}
    (hq : UprocAsid (entryHiGetAsid (k.vm.pte q).entryHi)) :
    entryHiGetAsid (k.vm.pte q).entryHi = (k.vm.supp q.1).supAsid ∧
      UprocAsid (k.vm.supp q.1).supAsid ∧
      getPageNum (k.vm.pte q).entryHi = BitVec.ofNat 32 q.2 := by
  obtain ⟨free, hk⟩ := h.users
  rcases hk.table q.1 with ⟨-, hz⟩ | ⟨ha, hhi⟩
  · have hz : (k.vm.pte q).entryHi = 0 := hz q.2
    rw [hz] at hq
    exact absurd hq (by decide)
  · have hhi : (k.vm.pte q).entryHi = pageHi (k.vm.supp q.1).supAsid q.2 := hhi q.2
    rw [hhi]
    exact ⟨entryHiGetAsid_pageHi ha q.2, ha, getPageNum_pageHi ha q.2⟩

/-- A store does not reach a frame in flight. -/
theorem PagerInv.poke (h : PagerInv k) (hf : k.InFlight f) {q : PtePtr}
    (hq : pteEntryIsValid (k.vm.pte q) = true) (offset : Fin 1024) (v : Word) :
    (k.vm.poke (entryLoGetPfn (k.vm.pte q).entryLo).toNat offset v).ram (frameNo f) =
      k.vm.ram (frameNo f) := by
  obtain ⟨j, hj, hl⟩ := (h.flight hf).1.covered q hq
  have hne : frameNo f ≠ frameNo j := fun heq => hj (congrArg some (frameNo_inj heq).symm)
  rw [hl.entryLo, entryLoGetPfn_frame]
  exact Vm.poke_of_ne k.vm offset v hne

/-- The device a U-proc reads from. -/
theorem PagerInv.reads (h : PagerInv k) {page : PtePtr} {d : Int} (hp : k.proc p = some u)
    (hu : u.phase = .paging page f (.reading d)) : d = (k.vm.supp page.1).supAsid.toNat - 1 ∧
      k.vm.dtp d = ⟨frameAddr f, BitVec.ofNat 32 page.2 <<< 8 ||| readBlk⟩ := by
  obtain ⟨-, hm, -, -, hd, hdtp⟩ : k.vm.During u.supp (.paging page f (.reading d)) :=
    hu ▸ h.during hp
  obtain ⟨hasid, -, hpage⟩ := h.fields hm.uproc
  rw [hpage] at hdtp
  rw [devNo, hasid] at hd
  exact ⟨hd, hdtp⟩

/-- One frame at most is in flight. -/
theorem PagerInv.flight_unique (h : PagerInv k) (hp : k.proc p = some u)
    (hu : u.phase.flight = some f) {j : Fin poolSize} (hj : k.InFlight j) : j = f := by
  obtain ⟨r, v, hv, hvf⟩ := hj
  rcases eq_or_ne r p with rfl | hr
  · obtain rfl := Option.some.inj (hp.symm.trans hv)
    exact Option.some.inj (hvf.symm.trans hu)
  · have hout := h.alone hp (Phase.flight_inside hu) hv hr
    rw [Phase.flight_inside hvf] at hout
    exact nomatch hout

/-- The device a victim goes to. -/
theorem PagerInv.writes (h : PagerInv k) {page : PtePtr} {d : Int} (hp : k.proc p = some u)
    (hu : u.phase = .paging page f (.writing d)) : ∃ q, (k.vm.swapTable f).swPte = some q ∧
      UprocAsid (k.vm.supp q.1).supAsid ∧ d = (k.vm.supp q.1).supAsid.toNat - 1 ∧
        k.vm.dtp d = ⟨framePoolStart + frameAddr f, BitVec.ofNat 32 q.2 <<< 8 ||| writeBlk⟩ := by
  obtain ⟨-, -, -, -, ⟨q, hq⟩, hd, hdtp⟩ : k.vm.During u.supp (.paging page f (.writing d)) :=
    hu ▸ h.during hp
  obtain ⟨hasid, huproc, hpage⟩ := h.fields hq.uproc
  rw [hq.swAsid, hasid] at hd
  rw [hq.swPageNo, hpage] at hdtp
  exact ⟨q, hq.swPte, huproc, hd, hdtp⟩

namespace DataMove

/-- The data stay where they are. -/
theorem same (hvm : k'.vm.flash = k.vm.flash ∧ k'.vm.ram = k.vm.ram ∧
      k'.vm.swapTable = k.vm.swapTable) (hflight : ∀ f, k'.InFlight f ↔ k.InFlight f)
    (hvalid : ∀ q, pteEntryIsValid (k.vm.pte q) = true → pteEntryIsValid (k'.vm.pte q) = true)
    (hno : ∀ q, evicts q ⟨k, e, k'⟩ = none) : DataMove k e k' := by
  obtain ⟨hflash, hram, htable⟩ := hvm
  refine .keep hflash hflight (fun f _ => ?_) hvalid hno
  rw [hram, htable]
  exact ⟨rfl, rfl⟩

theorem gone (hp : k.proc p = some u) (hu : u.phase.flight = none)
    (hno : ∀ q, evicts q ⟨k, e, k.termProcess p⟩ = none) : DataMove k e (k.termProcess p) := by
  refine .same ⟨rfl, rfl, rfl⟩ (inFlight_move (fun r hr => k.termProcess_of_ne p hr) ?_ ?_)
    (fun _ => id) hno
  · intro v hv
    obtain rfl := Option.some.inj (hp.symm.trans hv)
    exact hu
  · exact fun v hv => nomatch (k.termProcess_self p).symm.trans hv

theorem create {asid : Word} {supp : SuppPtr} (pool : Pool) (hk : PagerInv k)
    (hx : OwnTable ⟨k, e, k'⟩) (hp : k.proc p = none)
    (hvm : k'.vm = (k.create p asid supp pool).vm)
    (hproc : k'.proc = (k.create p asid supp pool).proc) (he : ∀ p, e ≠ .next p) :
    DataMove k e k' := by
  have hself : k'.proc p = some ⟨asid, supp, .user⟩ := by
    rw [hproc, Sys.create_self]
  have hgrows := create_grows hk p asid pool (hx p _ hp hself)
  rw [← hvm] at hgrows
  refine .same ?_ (inFlight_move (p := p) (fun r hr => ?_) ?_ ?_) (fun q hq => ?_)
    (evicts_of_event he)
  · rw [hvm]
    exact ⟨rfl, rfl, rfl⟩
  · rw [hproc, k.create_of_ne p asid supp pool hr]
  · exact fun v hv => nomatch hp.symm.trans hv
  · intro v hv
    obtain rfl := Option.some.inj (hself.symm.trans hv)
    rfl
  · rw [hgrows.valid_eq, hq]

end DataMove

theorem Outcome.dataMove (h : Outcome k e k') (hk : PagerInv k) (hx : Pages ⟨k, e, k'⟩) :
    DataMove k e k' := by
  cases h with
  | @created _ _ _ pool _ _ _ hp | @spawned _ _ _ pool _ _ hp =>
      exact .create pool hk hx.table hp rfl rfl nofun
  | allCreated _ _ | rootDown _ _ | rootReturns _ _ | refill _ _ _ _ _ =>
      exact .same ⟨rfl, rfl, rfl⟩ (inFlight_of_proc rfl) (fun _ => id) (evicts_of_event nofun)
  | rootEnds _ => exact .ends (fun _ => rfl) rfl (evicts_of_event nofun)
  | store hp hu hv =>
      exact .keep rfl (inFlight_of_proc rfl) (fun f hf => ⟨hk.poke hf hv _ _, rfl⟩) (fun _ => id)
        (evicts_of_event nofun)
  | refillEnds hp hu _ _ _ => exact .gone hp (by rw [hu]; rfl) (evicts_of_event nofun)
  | missing hp hu _ => exact .gone hp (by rw [hu]; rfl) (evicts_next hp (by rw [hu]; rfl))
  | gone hp hu => exact .gone hp (by rw [hu]; rfl) (evicts_next hp (by rw [hu]; rfl))
  | fault hp hu | except hp hu =>
      refine .same ⟨rfl, rfl, rfl⟩ (inFlight_setPhase hp rfl ?_) (fun q hq => ?_)
        (evicts_of_event nofun)
      · rw [hu]
        exact Phase.flight_outside (Phase.ofFate_outside ..).1
      · rw [Sys.setPhase_vm, Sys.setVm_vm, Vm.passup_pte, hq]
  | acquire hp hu =>
      refine .same ⟨rfl, rfl, rfl⟩ (inFlight_setPhase hp rfl ?_) (fun _ => id)
        (evicts_next hp (by rw [hu]; rfl))
      rw [hu]
      split
      · rfl
      · rfl
  | find hp hu _ | choose hp hu | writeOut hp hu _ | readIn hp hu | dealloc hp hu | notify hp hu =>
      exact .same ⟨rfl, rfl, rfl⟩ (inFlight_setPhase hp rfl (by rw [hu]; rfl)) (fun _ => id)
        (evicts_next hp (by rw [hu]; rfl))
  | evict hp hu hocc hq => exact .evict hp hu hocc hq
  | skip hp hu hocc =>
      refine .same ⟨rfl, rfl, rfl⟩ (inFlight_setPhase hp rfl (by rw [hu]; rfl)) (fun _ => id) ?_
      intro q
      simp [evicts, hp, hu, Phase.victim, hocc]
  | record hp hu =>
      refine .keep rfl (inFlight_setPhase hp rfl (by rw [hu]; rfl)) (fun f hf => ?_) (fun _ => id)
        (evicts_next hp (by rw [hu]; rfl))
      exact absurd hf (hk.not_inFlight hp (by rw [hu]; rfl) (by rw [hu]; rfl))
  | @map p u page frame hp hu =>
      refine .same ⟨rfl, rfl, rfl⟩ (inFlight_setPhase hp rfl (by rw [hu]; rfl)) (fun q hq => ?_)
        (evicts_next hp (by rw [hu]; rfl))
      rcases eq_or_ne q page with rfl | hne
      · exact k.vm.markValid_valid q
      · rw [Sys.setPhase_vm, Sys.setVm_vm, k.vm.markValid_of_ne page q hne, hq]
  | @release p u hp hu =>
      have hnone : ∀ f, ¬ k.InFlight f := fun f =>
        hk.not_inFlight hp (by rw [hu]; rfl) (by rw [hu]; rfl)
      refine .same ⟨rfl, rfl, rfl⟩ (fun f => iff_of_false ?_ (hnone f)) (fun _ => id)
        (evicts_next hp (by rw [hu]; rfl))
      rintro ⟨r, v, hv, hf⟩
      rcases verhogenSwap_proc hk.locks hv with ⟨rfl, rfl⟩ | ⟨-, h | ⟨w, -, -, rfl⟩⟩
      · cases hf
      · exact hnone f ⟨r, v, h, hf⟩
      · cases hf
  | @wrote p u page frame d status hp hu =>
      obtain rfl := hx.succeeds p status rfl
      exact .wrote hp hu
  | @loaded p u page frame d status hp hu =>
      obtain rfl := hx.succeeds p status rfl
      refine .keep ?_ (inFlight_setPhase hp rfl (by rw [hu]; rfl)) (fun f hf => ?_) (fun _ => id)
        (evicts_of_event nofun)
      · rw [Sys.setPhase_vm, Sys.setVm_vm, Vm.answer_read (hk.reads hp hu).2]
      · exact absurd hf (hk.not_inFlight hp (by rw [hu]; rfl) (by rw [hu]; rfl))

/-! ## Who uses which structure -/

/-- Those who use a structure used it before. -/
structure Same (k k' : Sys) : Prop where
  supAsid : ∀ s, (k'.vm.supp s).supAsid = (k.vm.supp s).supAsid
  users : ∀ {r v}, k'.proc r = some v → v.phase.uses = true →
    ∃ u, k.proc r = some u ∧ u.supp = v.supp ∧ u.asid = v.asid ∧ u.phase.uses = true

/-- `p` is new, and the others are as they were. -/
structure New (k k' : Sys) (p : PcbPtr) (v : Uproc) : Prop where
  proc : k.proc p = none
  self : k'.proc p = some v
  uproc : UprocAsid v.asid
  other : ∀ r, r ≠ p → k'.proc r = k.proc r
  supAsid : (k'.vm.supp v.supp).supAsid = v.asid
  supAsid_of_ne : ∀ s, s ≠ v.supp → (k'.vm.supp s).supAsid = (k.vm.supp s).supAsid

theorem UseMove.same_or_new (h : UseMove k e k') : Same k k' ∨ ∃ p v, New k k' p v := by
  cases h with
  | keep hvm _ hproc =>
      refine .inl ⟨hvm.supAsid, fun {r v} hv huse => ?_⟩
      obtain ⟨u, hu, hs, ha, himp⟩ := hproc r v hv
      exact ⟨u, hu, hs, ha, himp huse⟩
  | @free p u hp hu =>
      refine .inl ⟨fun _ => rfl, fun {r v} hv huse => ?_⟩
      rcases Sys.of_setPhase hv with ⟨rfl, rfl⟩ | ⟨-, hv⟩
      · cases huse
      · exact ⟨v, hv, rfl, rfl, huse⟩
  | @create _ _ p asid supp pool hasid _ hp hvm _ hproc =>
      refine .inr ⟨p, ⟨asid, supp, .user⟩, hp, ?_, hasid, fun r hr => ?_, ?_, fun s hs => ?_⟩
      · rw [hproc, Sys.create_self]
      · rw [hproc, k.create_of_ne p asid supp pool hr]
      · rw [hvm, k.create_supp_self p asid supp pool]
        rfl
      · rw [hvm, k.create_supp_of_ne p asid supp pool hs]

/-- A step in which a process moves creates nobody. -/
theorem same_of_move {φ : Phase} {vm : Vm} (hvm : k.vm.Keeps vm) (hp : k.proc p = some u)
    (hu : u.phase.uses = true) : Same k ((k.setVm vm).setPhase p u φ) where
  supAsid := hvm.supAsid
  users {r v} hv huse := by
    rcases Sys.of_setPhase hv with ⟨rfl, rfl⟩ | ⟨-, hv⟩
    · exact ⟨u, hp, rfl, rfl, hu⟩
    · exact ⟨v, hv, rfl, rfl, huse⟩

/-! ## Contents -/

/-- `last` is what the pages held when they were evicted. -/
structure Stored (m : Machine) (last : PtePtr → Option Page) (k : Sys) : Prop where
  inj : ∀ {s t}, UprocAsid (k.vm.supp s).supAsid →
    (k.vm.supp s).supAsid = (k.vm.supp t).supAsid → s = t
  fresh : ∀ {s}, (k.vm.supp s).supAsid = 0 → ∀ i, last (s, i) = none
  unused : ∀ {a : Word}, UprocAsid a → (∀ s, (k.vm.supp s).supAsid ≠ a) →
    k.vm.flash (a.toNat - 1) = m.flash (a.toNat - 1)
  stored : ∀ {p u}, k.proc p = some u → u.phase.uses = true → ∀ i : Fin maxPages,
    pteEntryIsValid (k.vm.pte (u.supp, i)) = false →
      (∀ f, k.InFlight f → (k.vm.swapTable f).swPte ≠ some (u.supp, i)) →
        k.vm.flash (u.asid.toNat - 1) i =
          (last (u.supp, i)).getD (m.flash (u.asid.toNat - 1) i)
  flying : ∀ {f q}, k.InFlight f → (k.vm.swapTable f).swPte = some q →
    last q = some (k.vm.ram (frameNo f))

namespace Stored

variable {m : Machine} {last last' : PtePtr → Option Page}

/-- ASIDs and evicted pages are as they were. -/
theorem inj_of_same (h : Stored m last k) (hs : Same k k') {s t : SuppPtr}
    (ha : UprocAsid (k'.vm.supp s).supAsid)
    (heq : (k'.vm.supp s).supAsid = (k'.vm.supp t).supAsid) : s = t := by
  rw [hs.supAsid] at ha heq
  rw [hs.supAsid] at heq
  exact h.inj ha heq

/-- Nothing moves, and nobody is new. -/
theorem keep_same (h : Stored m last k) (hs : Same k k') (hflash : k'.vm.flash = k.vm.flash)
    (hflight : ∀ f, k'.InFlight f ↔ k.InFlight f)
    (hframe : ∀ f, k.InFlight f → k'.vm.ram (frameNo f) = k.vm.ram (frameNo f) ∧
      (k'.vm.swapTable f).swPte = (k.vm.swapTable f).swPte)
    (hvalid : ∀ q, pteEntryIsValid (k.vm.pte q) = true → pteEntryIsValid (k'.vm.pte q) = true) :
    Stored m last k' where
  inj := h.inj_of_same hs
  fresh hz := by
    rw [hs.supAsid] at hz
    exact h.fresh hz
  unused ha hno := by
    rw [hflash]
    exact h.unused ha fun s => hs.supAsid s ▸ hno s
  stored hv huse i hinv hno := by
    obtain ⟨u, hu, hsupp, hasid, huse⟩ := hs.users hv huse
    rw [hflash, ← hsupp, ← hasid]
    rw [← hsupp] at hinv hno
    refine h.stored hu huse i ?_ fun f hf => ?_
    · rw [← Bool.not_eq_true] at hinv ⊢
      exact mt (hvalid _) hinv
    · rw [← (hframe f hf).2]
      exact hno f ((hflight f).mpr hf)
  flying hf hq := by
    have hf := (hflight _).mp hf
    obtain ⟨hram, hswPte⟩ := hframe _ hf
    rw [hswPte] at hq
    rw [hram]
    exact h.flying hf hq

/-- Nothing moves, and `p` is new; its device has its image. -/
theorem keep_new {v : Uproc} (h : Stored m last k) (hn : New k k' p v)
    (hx : ∀ s, (k.vm.supp s).supAsid ≠ v.asid) (hz : (k.vm.supp v.supp).supAsid = 0)
    (hflash : k'.vm.flash = k.vm.flash) (hflight : ∀ f, k'.InFlight f ↔ k.InFlight f)
    (hframe : ∀ f, k.InFlight f → k'.vm.ram (frameNo f) = k.vm.ram (frameNo f) ∧
      (k'.vm.swapTable f).swPte = (k.vm.swapTable f).swPte)
    (hvalid : ∀ q, pteEntryIsValid (k.vm.pte q) = true → pteEntryIsValid (k'.vm.pte q) = true) :
    Stored m last k' := by
  have hne : ∀ {s}, s ≠ v.supp → (k'.vm.supp s).supAsid ≠ v.asid := fun hs => by
    rw [hn.supAsid_of_ne _ hs]
    exact hx _
  constructor
  case inj =>
    intro s t ha heq
    rcases eq_or_ne s v.supp with rfl | hs
    · rcases eq_or_ne t v.supp with rfl | ht
      · rfl
      · exact absurd (heq.symm.trans hn.supAsid) (hne ht)
    · rcases eq_or_ne t v.supp with rfl | ht
      · exact absurd (heq.trans hn.supAsid) (hne hs)
      · rw [hn.supAsid_of_ne s hs] at ha heq
        rw [hn.supAsid_of_ne t ht] at heq
        exact h.inj ha heq
  case fresh =>
    intro s hs0 i
    rcases eq_or_ne s v.supp with rfl | hs
    · exact h.fresh hz i
    · rw [hn.supAsid_of_ne s hs] at hs0
      exact h.fresh hs0 i
  case unused =>
    intro a ha hno
    rw [hflash]
    refine h.unused ha fun s heq => ?_
    rcases eq_or_ne s v.supp with rfl | hs
    · rw [hz] at heq
      exact not_uprocAsid_zero (heq ▸ ha)
    · exact hno s ((hn.supAsid_of_ne s hs).trans heq)
  case stored =>
    intro r w hw huse i hinv hno
    rw [hflash]
    rcases eq_or_ne r p with rfl | hr
    · obtain rfl := Option.some.inj (hn.self.symm.trans hw)
      rw [h.fresh hz i, h.unused hn.uproc hx, Option.getD_none]
    · refine h.stored ((hn.other r hr).symm.trans hw) huse i ?_ fun f hf => ?_
      · rw [← Bool.not_eq_true] at hinv ⊢
        exact mt (hvalid _) hinv
      · rw [← (hframe f hf).2]
        exact hno f ((hflight f).mpr hf)
  case flying =>
    intro f q hf hq
    have hf := (hflight _).mp hf
    obtain ⟨hram, hswPte⟩ := hframe _ hf
    rw [hswPte] at hq
    rw [hram]
    exact h.flying hf hq

/-- The page `q` leaves the frame `f`. -/
theorem evict {page q : PtePtr} (h : Stored m last k) (hk : PagerInv k) (hp : k.proc p = some u)
    (hu : u.phase = .paging page f .chosen) (hocc : frameIsOccupied (k.vm.swapTable f) = true)
    (hq : (k.vm.swapTable f).swPte = some q)
    (hself : last' q = some (k.vm.ram (frameNo f))) (hother : ∀ r, r ≠ q → last' r = last r) :
    Stored m last' ((k.setVm (k.vm.markInvalid q)).setPhase p u (.paging page f .invalidated)) := by
  have hsame : Same k ((k.setVm (k.vm.markInvalid q)).setPhase p u
      (.paging page f .invalidated)) := same_of_move (Vm.markInvalid_keeps ..) hp (by rw [hu]; rfl)
  have hnone : ∀ j, ¬ k.InFlight j := fun j =>
    hk.not_inFlight hp (by rw [hu]; rfl) (by rw [hu]; rfl)
  have hasid : UprocAsid (k.vm.supp q.1).supAsid := by
    obtain ⟨-, -, -, hb⟩ : k.vm.During u.supp (.paging page f .chosen) := hu ▸ hk.during hp
    obtain ⟨r, hr⟩ := Vm.Bijective.linked hb f nofun hocc
    obtain rfl := Option.some.inj (hr.swPte.symm.trans hq)
    exact (hk.fields hr.uproc).2.1
  constructor
  case inj => exact h.inj_of_same hsame
  case fresh =>
    intro s hs i
    rw [hsame.supAsid] at hs
    rw [hother, h.fresh hs]
    rintro rfl
    exact not_uprocAsid_zero (hs ▸ hasid)
  case unused =>
    intro a ha hno
    exact h.unused ha fun s => hsame.supAsid s ▸ hno s
  case stored =>
    intro r v hv huse i hinv hno
    obtain ⟨w, hw, hsupp, hwasid, hwuse⟩ := hsame.users hv huse
    have hne : (v.supp, i) ≠ q := fun heq =>
      hno f ⟨p, _, Sys.setPhase_self _ p u _, rfl⟩ (heq ▸ hq)
    rw [Sys.setPhase_vm, Sys.setVm_vm, k.vm.markInvalid_of_ne q _ hne] at hinv
    rw [hother _ hne, ← hsupp, ← hwasid]
    rw [← hsupp] at hinv
    exact h.stored hw hwuse i hinv fun j hj => absurd hj (hnone j)
  case flying =>
    rintro j r ⟨t, v, hv, hvf⟩ hr
    rcases Sys.of_setPhase hv with ⟨rfl, rfl⟩ | ⟨-, hv⟩
    · obtain rfl : f = j := Option.some.inj hvf
      obtain rfl := Option.some.inj (hq.symm.trans hr)
      exact hself
    · exact absurd ⟨t, v, hv, hvf⟩ (hnone j)

/-- The page that has left the frame `f` is on its device. -/
theorem wrote {page : PtePtr} {d : Int} (h : Stored m last k) (hk : PagerInv k)
    (hp : k.proc p = some u) (hu : u.phase = .paging page f (.writing d))
    (hmirror : k.vm.ram (writtenNo f) = k.vm.ram (frameNo f)) :
    Stored m last ((k.setVm (k.vm.answer d ready)).setPhase p u (.paging page f .vacated)) := by
  obtain ⟨q, hq, hqasid, hd, hdtp⟩ := hk.writes hp hu
  have hvm := Vm.answer_write hdtp
  have hsame : Same k ((k.setVm (k.vm.answer d ready)).setPhase p u (.paging page f .vacated)) :=
    same_of_move (.of_supp rfl) hp (by rw [hu]; rfl)
  have hf : k.InFlight f := ⟨p, u, hp, by rw [hu]; rfl⟩
  have honly : ∀ {j}, k.InFlight j → j = f := fun hj =>
    hk.flight_unique hp (by rw [hu]; rfl) hj
  obtain ⟨free, husers⟩ := hk.users
  constructor
  case inj => exact h.inj_of_same hsame
  case fresh => exact h.fresh
  case unused =>
    intro a ha hno
    have hne : (a.toNat : Int) - 1 ≠ d := by
      intro heq
      refine hno q.1 (BitVec.eq_of_toNat_eq ?_)
      show (k.vm.supp q.1).supAsid.toNat = a.toNat
      omega
    rw [Sys.setPhase_vm, Sys.setVm_vm, hvm]
    exact (Function.update_of_ne hne ..).trans (h.unused ha hno)
  case stored =>
    intro r v hv huse i hinv _
    obtain ⟨w, hw, hsupp, hwasid, hwuse⟩ := hsame.users hv huse
    obtain ⟨hown, hva⟩ := husers.asid hw hwuse
    rw [Sys.setPhase_vm, Sys.setVm_vm, hvm, ← hsupp, ← hwasid]
    have hinv : pteEntryIsValid (k.vm.pte (w.supp, i)) = false := hsupp ▸ hinv
    rcases eq_or_ne (w.supp, i) q with rfl | hne
    · have hdev : (w.asid.toNat : Int) - 1 = d := by rw [hd, hown]
      dsimp only
      rw [hdev, Function.update_self, Function.update_self, hmirror, h.flying hf hq,
        Option.getD_some]
    · have hkeep : Function.update k.vm.flash d (Function.update (k.vm.flash d) q.2
          (k.vm.ram (writtenNo f))) (w.asid.toNat - 1) i = k.vm.flash (w.asid.toNat - 1) i := by
        rcases eq_or_ne ((w.asid.toNat : Int) - 1) d with hdev | hdev
        · have hasid : (k.vm.supp w.supp).supAsid = (k.vm.supp q.1).supAsid := by
            apply BitVec.eq_of_toNat_eq
            rw [hown]
            omega
          have hs : w.supp = q.1 := h.inj (hown.symm ▸ hva) hasid
          have hi : (i : Nat) ≠ q.2 := fun heq => hne (Prod.ext hs (Fin.ext heq))
          rw [hdev, Function.update_self, Function.update_of_ne hi]
        · rw [Function.update_of_ne hdev]
      refine hkeep.trans (h.stored hw hwuse i hinv fun j hj heq => ?_)
      rw [honly hj, hq] at heq
      exact hne (Option.some.inj heq).symm
  case flying =>
    rintro j r ⟨t, v, hv, hvf⟩ _
    rcases Sys.of_setPhase hv with ⟨rfl, rfl⟩ | ⟨ht, hv⟩
    · cases hvf
    · have hj : k.InFlight j := ⟨t, v, hv, hvf⟩
      have hout := hk.alone hp (by rw [hu]; rfl) hv ht
      rw [Phase.flight_inside hvf] at hout
      exact nomatch hout

/-- All U-procs are gone. -/
theorem ends (h : Stored m last k) (hproc : ∀ p, k'.proc p = none) (hvm : k'.vm = k.vm) :
    Stored m last k' where
  inj := by
    rw [hvm]
    exact h.inj
  fresh := by
    rw [hvm]
    exact h.fresh
  unused := by
    rw [hvm]
    exact h.unused
  stored hv := nomatch (hproc _).symm.trans hv
  flying hf := by
    obtain ⟨r, v, hv, -⟩ := hf
    exact nomatch (hproc r).symm.trans hv

end Stored

/-! ## Runs -/

structure ContentsInv (m : Machine) (tr : List Entry) (k : Sys) : Prop where
  pager : PagerInv k
  stored : Stored m (lastEvicted tr) k

theorem ContentsInv.step {m : Machine} {tr : List Entry} (h : ContentsInv m tr k)
    (hs : Phase3.step k e = some k') (hx : Pages ⟨k, e, k'⟩) (hm : Mirrors ⟨k, e, k'⟩) :
    ContentsInv m (tr ++ [⟨k, e, k'⟩]) k' := by
  obtain ⟨hk, hstored⟩ := h
  have hout := step_outcome hs
  refine ⟨hk.step hs hx.invalid hx.table, ?_⟩
  have hlast : (∀ q, evicts q ⟨k, e, k'⟩ = none) →
      lastEvicted (tr ++ [⟨k, e, k'⟩]) = lastEvicted tr := fun hno => by
    funext q
    rw [lastEvicted_snoc, hno, Option.none_or]
  cases hout.dataMove hk hx with
  | keep hflash hflight hframe hvalid hno =>
      rw [hlast hno]
      rcases (hout.useMove hk.locks).same_or_new with hsame | ⟨p, v, hnew⟩
      · exact hstored.keep_same hsame hflash hflight hframe hvalid
      · exact hstored.keep_new hnew (hx.asid p v hnew.proc hnew.self)
          (hx.table p v hnew.proc hnew.self) hflash hflight hframe hvalid
  | @evict p u page f q hp hu hocc hq =>
      refine hstored.evict hk hp hu hocc hq ?_ fun r hr => ?_
      · rw [lastEvicted_snoc]
        simp [evicts, hp, hu, Phase.victim, hocc, hq]
      · rw [lastEvicted_snoc]
        simp [evicts, hp, hu, Phase.victim, hocc, hq, hr.symm]
  | @wrote p u page f d hp hu =>
      rw [hlast (evicts_of_event nofun)]
      exact hstored.wrote hk hp hu (hm p ready u page f d rfl hp hu)
  | ends hproc hvm hno =>
      rw [hlast hno]
      exact hstored.ends hproc hvm

theorem Machine.start_contents (m : Machine) : ContentsInv m [] m.start where
  pager := m.start_pager
  stored :=
    { inj := fun h => absurd h not_uprocAsid_zero
      fresh := fun _ _ => rfl
      unused := fun _ _ => rfl
      stored := nofun
      flying := by
        rintro f q ⟨r, v, hv, -⟩
        exact nomatch hv }

theorem Run.contents {m : Machine} {tr : List Entry} (h : Run m tr k)
    (hx : ∀ x ∈ tr, Pages x) (hm : ∀ x ∈ tr, Mirrors x) : ContentsInv m tr k :=
  h.invariant (P := ContentsInv m) (G := fun x => Pages x ∧ Mirrors x)
    (fun x hmem => ⟨hx x hmem, hm x hmem⟩) m.start_contents fun h hs hx => h.step hs hx.1 hx.2

/-- If every victim is mirrored behind the pool when it is written back, then
a page that is brought in holds what it held when it was last evicted, or the
image on its device.  A victim is written to the block it came from, but
always from an address that is not in the pool. -/
theorem contents_kept {m : Machine} {tr : List Entry} (h : Run m tr k)
    (hx : ∀ x ∈ tr, Pages x) :
    ((∀ x ∈ tr, Mirrors x) → ∀ {p u page f d k'}, k.proc p = some u →
      u.phase = .paging page f (.reading d) → step k (.flashDone p ready) = some k' →
        k'.vm.ram (frameNo f) =
          (lastEvicted tr page).getD (m.flash (u.asid.toNat - 1) page.2)) ∧
    ∀ {p u page f d}, k.proc p = some u → u.phase = .paging page f (.writing d) →
      ∃ q, (k.vm.swapTable f).swPte = some q ∧ d = (k.vm.supp q.1).supAsid.toNat - 1 ∧
        k.vm.dtp d = ⟨framePoolStart + frameAddr f, BitVec.ofNat 32 q.2 <<< 8 ||| writeBlk⟩ ∧
        ∀ j, ((k.vm.dtp d).data0 >>> 12).toNat ≠ frameNo j := by
  have hk : PagerInv k := h.pager fun x hmem => ⟨(hx x hmem).invalid, (hx x hmem).table⟩
  constructor
  · intro hm p u page f d k' hp hu hs
    obtain ⟨-, hstored⟩ := h.contents hx hm
    obtain ⟨hfst, hmiss, -⟩ : k.vm.During u.supp (.paging page f (.reading d)) :=
      hu ▸ hk.during hp
    obtain ⟨hd, hdtp⟩ := hk.reads hp hu
    obtain ⟨free, husers⟩ := hk.users
    have huse : u.phase.uses = true := by
      rw [hu]
      rfl
    have hpage : (u.supp, page.2) = page := Prod.ext hfst.symm rfl
    have hblock := hstored.stored hp huse page.2 (hpage ▸ hmiss.invalid) fun j hj =>
      absurd hj (hk.not_inFlight hp (by rw [hu]; rfl) (by rw [hu]; rfl))
    rw [hpage] at hblock
    have hdev : d = u.asid.toNat - 1 := by
      rw [hd, hfst, (husers.asid hp huse).1]
    simp only [Phase3.step, hp, Option.bind_some, Sys.flashDone, hu, Option.some.injEq] at hs
    subst hs
    rw [Sys.setPhase_vm, Sys.setVm_vm, Vm.answer_read hdtp]
    refine (Function.update_self ..).trans ?_
    rw [hdev, hblock]
  · intro p u page f d hp hu
    obtain ⟨q, hq, -, hd, hdtp⟩ := hk.writes hp hu
    refine ⟨q, hq, hd, hdtp, fun j => ?_⟩
    rw [hdtp]
    exact writtenNo_ne f j

end

section
variable {k k' : Sys} {p r : PcbPtr} {u v : Uproc} {e : Event} {φ : Phase}

theorem setPhase_none (hp : k.proc p = some u) (hr : k.proc r = none) :
    (k.setPhase p u φ).proc r = none := by
  have hne : r ≠ p := by
    rintro rfl
    exact nomatch hp.symm.trans hr
  rw [k.setPhase_of_ne p u φ hne, hr]

theorem termProcess_none (hr : k.proc r = none) : (k.termProcess p).proc r = none := by
  rcases eq_or_ne r p with rfl | hne
  · exact k.termProcess_self r
  · rw [k.termProcess_of_ne p hne, hr]

/-- Only `initUProcs` creates a U-proc. -/
theorem Outcome.creates (h : Outcome k e k') (hl : k.Locks) (hr : k.proc r = none)
    (hv : k'.proc r = some v) : e = .root r ∨ ∃ asid, e = .spawn r asid := by
  have hno : k'.proc r ≠ none := fun hn => nomatch hn.symm.trans hv
  cases h with
  | @created p i supp pool _ _ _ _ =>
      rcases eq_or_ne r p with rfl | hne
      · exact .inl rfl
      · exact absurd ((k.create_of_ne p (BitVec.ofNat 32 (i + 1)) supp pool hne).trans hr) hno
  | @spawned p asid supp pool _ _ _ =>
      rcases eq_or_ne r p with rfl | hne
      · exact .inr ⟨asid, rfl⟩
      · exact absurd ((k.create_of_ne p asid supp pool hne).trans hr) hno
  | allCreated _ _ | rootDown _ _ | rootReturns _ _ | store _ _ _ | refill _ _ _ _ _ =>
      exact absurd hr hno
  | rootEnds _ => exact nomatch hv
  | refillEnds _ _ _ _ _ | missing _ _ _ | gone _ _ => exact absurd (termProcess_none hr) hno
  | fault hp _ | except hp _ | evict hp _ _ _ | choose hp _ | writeOut hp _ _ | readIn hp _
  | record hp _ | map hp _ | wrote hp _ | loaded hp _ =>
      exact absurd (setPhase_none (k := k.setVm _) hp hr) hno
  | find hp _ _ | skip hp _ _ => exact absurd (setPhase_none hp hr) hno
  | acquire hp _ => exact absurd (setPhase_none (k := { k with swapSem := _ }) hp hr) hno
  | dealloc hp _ => exact absurd (setPhase_none (k := { k with pool := _ }) hp hr) hno
  | notify hp _ => exact absurd (setPhase_none (k := k.notifyTerminated) hp hr) hno
  | @release p u hp _ =>
      rcases verhogenSwap_proc hl hv with ⟨rfl, -⟩ | ⟨-, hw | ⟨w, hw, -⟩⟩
      · cases hp.symm.trans hr
      · cases hr.symm.trans hw
      · cases hr.symm.trans hw

/-- `Pages`, as far as the event makes it necessary to look. -/
def checksPages (x : Entry) : Bool :=
  match x.event with
  | .root _ | .spawn _ _ => OwnTable x ∧ OwnAsid x
  | .fault _ _ => FaultsInvalid x
  | .flashDone _ status => status = ready
  | .store _ _ _ _ | .refill _ _ | .except _ _ | .next _ => true

theorem pages_of_checks {m : Machine} {tr : List Entry} (h : Run m tr k)
    (hx : ∀ x ∈ tr, checksPages x = true) : ∀ x ∈ tr, Pages x := by
  intro x hmem
  obtain ⟨tr₁, tr₂, -, hrun, hs⟩ := h.of_mem hmem
  have hc := hx x hmem
  have hnew : OwnTable x ∧ OwnAsid x := by
    by_cases he : ∃ r, x.event = .root r ∨ ∃ asid, x.event = .spawn r asid
    · obtain ⟨r, he | ⟨asid, he⟩⟩ := he
      · simpa [checksPages, he] using hc
      · simpa [checksPages, he] using hc
    · have hno : ∀ r v, x.before.proc r = none → x.after.proc r ≠ some v := fun r v hr hv =>
        he ⟨r, (step_outcome hs).creates (Run.locks hrun) hr hv⟩
      exact ⟨fun r v hr hv => absurd hv (hno r v hr), fun r v hr hv => absurd hv (hno r v hr)⟩
  refine ⟨fun r saved u i he => ?_, hnew.1, hnew.2, fun r status he => ?_⟩
  · have hf : FaultsInvalid x := by simpa [checksPages, he] using hc
    exact hf r saved u i he
  · simpa [checksPages, he] using hc

end

/-- The faults on the first seventeen pages, the last of which evicts the first
page, and one more on the first page, up to the wait for it. -/
def refault : List Event :=
  .root 1 :: fillsPool ++ (faultOn 16 ++ writesBack ++ readsIn) ++ (faultOn 0 ++ writesBack) ++
    [.next 1]

/-- Memory and devices hold nothing but ones, and so does what is behind the pool. -/
theorem contents_kept_refault : ∃ tr k k', Run { Machine.zero with
    ram := fun _ _ => 1, flash := fun _ _ _ => 1 } tr k ∧ tr.map Trace.Entry.event = refault ∧
      step k (.flashDone 1 ready) = some k' ∧ (lastEvicted tr (7, 0)).isSome = true ∧
        k'.vm.ram (frameNo 1) = (lastEvicted tr (7, 0)).getD fun _ => 1 := by
  have hany : (Trace.exec step (Machine.start { Machine.zero with
      ram := fun _ _ => 1, flash := fun _ _ _ => 1 }) refault).any (fun x =>
        ((x.2.proc 1).any fun u => u.phase = .paging (7, 0) 1 (.reading 0)) = true ∧
          (step x.2 (.flashDone 1 ready)).isSome = true ∧ (lastEvicted x.1 (7, 0)).isSome = true ∧
            ∀ z ∈ x.1, checksPages z = true ∧ Mirrors z) = true := by
    decide +kernel
  obtain ⟨tr, k, hrun, hevents, h⟩ := Trace.run_of_any hany
  obtain ⟨hp, hs, hlast, hx⟩ := of_decide_eq_true h
  obtain ⟨u, hp, hu⟩ := Option.any_eq_true .. |>.mp hp
  obtain ⟨k', hs⟩ := Option.isSome_iff_exists.mp hs
  have hpages := pages_of_checks hrun fun z hz => (hx z hz).1
  have hkept := (contents_kept hrun hpages).1 (fun z hz => (hx z hz).2) hp (of_decide_eq_true hu) hs
  exact ⟨tr, k, k', hrun, hevents, hs, hlast, hkept⟩

/-- With zeros in memory, the first page comes back with zeros instead of the
ones of its device. -/
theorem contents_lost : ∃ tr k k' u, Run { Machine.zero with flash := fun _ _ _ => 1 } tr k ∧
    tr.map Trace.Entry.event = refault ∧ (∀ z ∈ tr, Pages z) ∧ k.proc 1 = some u ∧
      u.phase = .paging (7, 0) 1 (.reading 0) ∧ step k (.flashDone 1 ready) = some k' ∧
        k'.vm.ram (frameNo 1) 0 = 0 ∧
          (lastEvicted tr (7, 0)).map (fun page => page 0) = some 1 := by
  have hany : (Trace.exec step (Machine.start { Machine.zero with flash := fun _ _ _ => 1 })
      refault).any (fun x =>
        ((x.2.proc 1).any fun u => u.phase = .paging (7, 0) 1 (.reading 0)) = true ∧
          ((step x.2 (.flashDone 1 ready)).any fun k' => k'.vm.ram (frameNo 1) 0 = 0) = true ∧
            (lastEvicted x.1 (7, 0)).map (fun page => page 0) = some 1 ∧
              ∀ z ∈ x.1, checksPages z = true) = true := by
    decide +kernel
  obtain ⟨tr, k, hrun, hevents, h⟩ := Trace.run_of_any hany
  obtain ⟨hp, hs, hlast, hx⟩ := of_decide_eq_true h
  obtain ⟨u, hp, hu⟩ := Option.any_eq_true .. |>.mp hp
  obtain ⟨k', hs, hram⟩ := Option.any_eq_true .. |>.mp hs
  exact ⟨tr, k, k', u, hrun, hevents, pages_of_checks hrun hx, hp, of_decide_eq_true hu, hs,
    of_decide_eq_true hram, hlast⟩

end Pandos.Phase3
