/-
# `Pandos.Phase3.VirtualMemory` — the memory of a U-proc

A U-proc sees the images of its flash device, and over them what it has stored
itself (`memory`).  Paging does not show: wherever a page is, in a frame, on its
device or on its way out, it holds what its U-proc sees there, in every run in
which the contents of pages are kept (`private_memory`).  Where the TLB is in
step with the page tables, an access that it translates finds this, too
(`translated_memory`).

The runs are those of `contents_kept`: page faults are for pages that are not
valid, and every victim is mirrored behind the pool.  A store goes to the frame
in the page table entry, if it is valid, and not through the TLB; so nothing is
said of a store that a stale TLB entry would have sent elsewhere.
-/
import Pandos.Phase3.Coherence
import Pandos.Phase3.Contents

namespace Pandos.Phase3

/-! ## What a U-proc sees -/

/-- A new U-proc sees the images of its device; a store is seen by nobody else. -/
def remember (m : Machine) (mem : PtePtr → Page) (x : Entry) : PtePtr → Page :=
  match x.event with
  | .store p i offset v =>
      (x.before.proc p).elim mem fun u =>
        Function.update mem (u.supp, i) (Function.update (mem (u.supp, i)) offset v)
  | .root p | .spawn p _ =>
      if (x.before.proc p).isSome then mem
      else (x.after.proc p).elim mem fun u q =>
        if q.1 = u.supp then m.flash (u.asid.toNat - 1) q.2 else mem q
  | .refill _ _ | .fault _ _ | .except _ _ | .next _ | .flashDone _ _ => mem

/-- The pages as their U-procs see them. -/
def memory (m : Machine) (tr : List Entry) : PtePtr → Page := tr.foldl (remember m) fun _ _ => 0

theorem memory_snoc (m : Machine) (tr : List Entry) (x : Entry) :
    memory m (tr ++ [x]) = remember m (memory m tr) x := by
  simp [memory]

/-! ## Steps -/

/-- The frame `f` has received the page, which is not mapped yet. -/
def Sys.Filled (k : Sys) (f : Fin poolSize) (page : PtePtr) : Prop :=
  ∃ p u, k.proc p = some u ∧ (u.phase = .paging page f .loaded ∨ u.phase = .paging page f .recorded)

/-- What a step does to pages and to what is seen of them. -/
inductive MemoryMove (k : Sys) (e : Event) (k' : Sys) : Prop where
  | quiet (hseen : ∀ m mem, remember m mem ⟨k, e, k'⟩ = mem)
      (hno : ∀ q, evicts q ⟨k, e, k'⟩ = none) (hram : k'.vm.ram = k.vm.ram)
      (hpte : ∀ q, k'.vm.pte q = k.vm.pte q) (hsame : Same k k')
      (hfilled : ∀ f page, k'.Filled f page → k.Filled f page)
  | create {p asid supp} (pool : Pool) (hp : k.proc p = none) (hasid : UprocAsid asid)
      (hseen : ∀ m mem, remember m mem ⟨k, e, k'⟩ = fun q =>
        if q.1 = supp then m.flash (asid.toNat - 1) q.2 else mem q)
      (hno : ∀ q, evicts q ⟨k, e, k'⟩ = none) (hvm : k'.vm = (k.create p asid supp pool).vm)
      (hproc : k'.proc = (k.create p asid supp pool).proc)
  | store {p u i offset v} (he : e = .store p i offset v) (hp : k.proc p = some u)
      (hv : pteEntryIsValid (k.vm.pte (u.supp, i)) = true)
      (hk : k' = k.setVm (k.vm.poke (entryLoGetPfn (k.vm.pte (u.supp, i)).entryLo).toNat offset v))
  | evict {p u page f q} (he : e = .next p) (hp : k.proc p = some u)
      (hu : u.phase = .paging page f .chosen) (hocc : frameIsOccupied (k.vm.swapTable f) = true)
      (hq : (k.vm.swapTable f).swPte = some q)
      (hk : k' = (k.setVm (k.vm.markInvalid q)).setPhase p u (.paging page f .invalidated))
  | load {p u page f d} (he : e = .flashDone p ready) (hp : k.proc p = some u)
      (hu : u.phase = .paging page f (.reading d))
      (hk : k' = (k.setVm (k.vm.answer d ready)).setPhase p u (.paging page f .loaded))
  | map {p u page f} (he : e = .next p) (hp : k.proc p = some u)
      (hu : u.phase = .paging page f .recorded)
      (hk : k' = (k.setVm (k.vm.markValidAndUpdateTLB page)).setPhase p u .mapped)

section
variable {k k' : Sys} {p r : PcbPtr} {u : Uproc} {e : Event} {f : Fin poolSize} {tr : List Entry}

theorem Sys.Filled.paging {page : PtePtr} (h : k.Filled f page) : ∃ p u σ, k.proc p = some u ∧
    u.phase = .paging page f σ ∧ σ ≠ .chosen := by
  obtain ⟨p, u, hp, hu | hu⟩ := h
  · exact ⟨p, u, .loaded, hp, hu, by simp⟩
  · exact ⟨p, u, .recorded, hp, hu, by simp⟩

theorem filled_of_proc (hproc : k'.proc = k.proc) (f : Fin poolSize) (page : PtePtr)
    (h : k'.Filled f page) : k.Filled f page := by
  rwa [Sys.Filled, hproc] at h

/-- Nobody has filled a frame by a step that does not. -/
theorem filled_of_setPhase {φ : Phase} (hproc : k'.proc = (k.setPhase p u φ).proc)
    (hφ : ∀ f page, φ = .paging page f .loaded ∨ φ = .paging page f .recorded → k.Filled f page)
    (f : Fin poolSize) (page : PtePtr) (h : k'.Filled f page) : k.Filled f page := by
  obtain ⟨r, v, hv, hfull⟩ := h
  rw [hproc] at hv
  rcases Sys.of_setPhase hv with ⟨-, rfl⟩ | ⟨-, hv⟩
  · exact hφ f page hfull
  · exact ⟨r, v, hv, hfull⟩

theorem Phase.not_filled {φ : Phase} (h : φ.inside = false) {page : PtePtr} :
    ¬ (φ = .paging page f .loaded ∨ φ = .paging page f .recorded) := by
  rintro (rfl | rfl)
  · cases h
  · cases h

/-- A step that creates nobody shows nothing new. -/
theorem remember_root (h : ∀ r, k.proc r = none → k'.proc r = none) (m : Machine)
    (mem : PtePtr → Page) : remember m mem ⟨k, .root p, k'⟩ = mem := by
  simp only [remember]
  split
  · rfl
  next hn =>
    rw [h p (by simpa using hn)]
    rfl

theorem filled_of_termProcess (f : Fin poolSize) (page : PtePtr)
    (h : (k.termProcess p).Filled f page) : k.Filled f page := by
  obtain ⟨r, v, hv, hfull⟩ := h
  exact ⟨r, v, (Sys.of_termProcess hv).2, hfull⟩

theorem remember_new {asid : Word} {supp : SuppPtr} (pool : Pool) (hp : k.proc p = none)
    (hproc : k'.proc = (k.create p asid supp pool).proc)
    (he : e = .root p ∨ ∃ a, e = .spawn p a) (m : Machine) (mem : PtePtr → Page) :
    remember m mem ⟨k, e, k'⟩ =
      fun q => if q.1 = supp then m.flash (asid.toNat - 1) q.2 else mem q := by
  have hself : k'.proc p = some ⟨asid, supp, .user⟩ := by
    rw [hproc, Sys.create_self]
  rcases he with rfl | ⟨a, rfl⟩
  · simp [remember, hp, hself]
  · simp [remember, hp, hself]

theorem Outcome.memoryMove (h : Outcome k e k') (hk : PagerInv k) (hx : Pages ⟨k, e, k'⟩) :
    MemoryMove k e k' := by
  have hsame : (∀ r, k.proc r = none → k'.proc r = none) → Same k k' := by
    intro hno
    refine (h.useMove hk.locks).same_or_new.resolve_right ?_
    rintro ⟨r, v, hn⟩
    cases (hno r hn.proc).symm.trans hn.self
  have hnone : (∀ r, ¬ (e = .root r ∨ ∃ asid, e = .spawn r asid)) →
      ∀ r, k.proc r = none → k'.proc r = none := by
    intro he r hr
    by_contra hne
    obtain ⟨v, hv⟩ := Option.ne_none_iff_exists'.mp hne
    exact he r (h.creates hk.locks hr hv)
  cases h with
  | @created p i supp pool hroot hi halloc hp =>
      exact .create pool hp (uprocAsid_ofNat hi) (remember_new pool hp rfl (.inl rfl))
        (evicts_of_event (by simp)) rfl rfl
  | @spawned p asid supp pool hasid _ hp =>
      exact .create pool hp hasid (remember_new pool hp rfl (.inr ⟨asid, rfl⟩)) (evicts_of_event (by simp))
        rfl rfl
  | allCreated _ _ | rootDown _ _ | rootReturns _ _ =>
      exact .quiet (remember_root fun _ => id) (evicts_of_event (by simp)) rfl (fun _ => rfl)
        (hsame fun _ => id) (filled_of_proc rfl)
  | rootEnds _ =>
      refine .quiet (remember_root fun _ _ => rfl) (evicts_of_event (by simp)) rfl (fun _ => rfl)
        (hsame fun _ _ => rfl) ?_
      rintro f page ⟨r, v, hv, -⟩
      cases hv
  | store hp hu hv => exact .store rfl hp hv rfl
  | refill _ _ _ _ _ =>
      exact .quiet (fun _ _ => rfl) (evicts_of_event (by simp)) rfl (fun _ => rfl)
        (hsame (hnone (by simp))) (filled_of_proc rfl)
  | refillEnds _ _ _ _ _ =>
      exact .quiet (fun _ _ => rfl) (evicts_of_event (by simp)) rfl (fun _ => rfl)
        (hsame (hnone (by simp))) filled_of_termProcess
  | fault hp hu | except hp hu =>
      exact .quiet (fun _ _ => rfl) (evicts_of_event (by simp)) rfl (Vm.passup_pte _ _ _ _)
        (hsame (hnone (by simp))) (filled_of_setPhase rfl fun _ _ h =>
          absurd h (Phase.not_filled (Phase.ofFate_outside ..).1))
  | missing hp hu _ | gone hp hu =>
      exact .quiet (fun _ _ => rfl) (evicts_next hp (by rw [hu]; rfl)) rfl (fun _ => rfl)
        (hsame (hnone (by simp))) filled_of_termProcess
  | acquire hp hu =>
      refine .quiet (fun _ _ => rfl) (evicts_next hp (by rw [hu]; rfl)) rfl (fun _ => rfl)
        (hsame (hnone (by simp))) (filled_of_setPhase rfl fun f page h => ?_)
      split at h
      · cases h <;> contradiction
      · cases h <;> contradiction
  | find hp hu _ | choose hp hu | writeOut hp hu _ | readIn hp hu | dealloc hp hu | notify hp hu =>
      exact .quiet (fun _ _ => rfl) (evicts_next hp (by rw [hu]; rfl)) rfl (fun _ => rfl)
        (hsame (hnone (by simp))) (filled_of_setPhase rfl (by simp))
  | skip hp hu hocc =>
      refine .quiet (fun _ _ => rfl) (fun q => ?_) rfl (fun _ => rfl)
        (hsame (hnone (by simp))) (filled_of_setPhase rfl (by simp))
      simp [evicts, hp, hu, Phase.victim, hocc]
  | record hp hu =>
      refine .quiet (fun _ _ => rfl) (evicts_next hp (by rw [hu]; rfl)) rfl (fun _ => rfl)
        (hsame (hnone (by simp))) (filled_of_setPhase rfl fun f page h => ?_)
      obtain ⟨rfl, rfl, -⟩ := Phase.paging.inj (h.resolve_left (by simp))
      exact ⟨_, _, hp, .inl hu⟩
  | @release p u hp hu =>
      refine .quiet (fun _ _ => rfl) (evicts_next hp (by rw [hu]; rfl)) rfl (fun _ => rfl)
        (hsame (hnone (by simp))) ?_
      rintro f page ⟨r, v, hv, hfull⟩
      rcases verhogenSwap_proc hk.locks hv with ⟨-, rfl⟩ | ⟨-, h | ⟨w, -, -, rfl⟩⟩
      · exact absurd hfull (Phase.not_filled rfl)
      · exact ⟨r, v, h, hfull⟩
      · rcases hfull with hfull | hfull
        · cases hfull
        · cases hfull
  | evict hp hu hocc hq => exact .evict rfl hp hu hocc hq rfl
  | map hp hu => exact .map rfl hp hu rfl
  | @wrote p u page frame d status hp hu =>
      obtain rfl := hx.succeeds p status rfl
      refine .quiet (fun _ _ => rfl) (evicts_of_event (by simp)) ?_ (fun _ => rfl)
        (hsame (hnone (by simp))) (filled_of_setPhase rfl (by simp))
      obtain ⟨q, -, -, -, hdtp⟩ := hk.writes hp hu
      rw [Sys.setPhase_vm, Sys.setVm_vm, Vm.answer_write hdtp]
  | @loaded p u page frame d status hp hu =>
      obtain rfl := hx.succeeds p status rfl
      exact .load rfl hp hu rfl

/-! ## Where the pages are -/

/-- The physical page that a page table entry leads to. -/
def Vm.frameOf (vm : Vm) (q : PtePtr) : Nat := (entryLoGetPfn (vm.pte q).entryLo).toNat

theorem Vm.Linked.frameOf {vm : Vm} {q : PtePtr} (h : vm.Linked f q) : vm.frameOf q = frameNo f := by
  rw [Vm.frameOf, h.entryLo, entryLoGetPfn_frame]

/-- Valid pages are in different frames. -/
theorem PagerInv.frameOf_inj (h : PagerInv k) {q q' : PtePtr}
    (hq : pteEntryIsValid (k.vm.pte q) = true) (hq' : pteEntryIsValid (k.vm.pte q') = true)
    (heq : k.vm.frameOf q = k.vm.frameOf q') : q = q' := by
  obtain ⟨except, hb⟩ := h.linked
  obtain ⟨i, -, hi⟩ := hb.covered q hq
  obtain ⟨j, -, hj⟩ := hb.covered q' hq'
  rw [hi.frameOf, hj.frameOf] at heq
  obtain rfl := frameNo_inj heq
  exact hi.page_inj hj

/-- No valid page is in the frame that is being filled. -/
theorem PagerInv.frameOf_ne {page q : PtePtr} {σ : Stage} (h : PagerInv k)
    (hp : k.proc p = some u) (hu : u.phase = .paging page f σ) (hσ : σ ≠ .chosen)
    (hq : pteEntryIsValid (k.vm.pte q) = true) : k.vm.frameOf q ≠ frameNo f := by
  have hb : k.vm.Bijective (some f) := by
    obtain ⟨-, -, -, hat⟩ : k.vm.During u.supp (.paging page f σ) := hu ▸ h.during hp
    cases σ with
    | chosen => exact absurd rfl hσ
    | vacated | loaded => exact hat
    | invalidated | writing _ | reading _ | recorded => exact hat.1
  obtain ⟨j, hj, hl⟩ := hb.covered q hq
  rw [hl.frameOf]
  exact fun heq => hj (congrArg some (frameNo_inj heq))

/-- `mem` is what is in the pages, and `last` what was in them when they left. -/
structure Remembered (m : Machine) (last : PtePtr → Option Page) (mem : PtePtr → Page) (k : Sys) :
    Prop where
  mapped : ∀ q, pteEntryIsValid (k.vm.pte q) = true → k.vm.ram (k.vm.frameOf q) = mem q
  filled : ∀ {f page}, k.Filled f page → k.vm.ram (frameNo f) = mem page
  absent : ∀ {p u}, k.proc p = some u → u.phase.uses = true → ∀ i : Fin maxPages,
    pteEntryIsValid (k.vm.pte (u.supp, i)) = false →
      (last (u.supp, i)).getD (m.flash (u.asid.toNat - 1) i) = mem (u.supp, i)

namespace Remembered

variable {m : Machine} {last last' : PtePtr → Option Page} {mem : PtePtr → Page}

theorem quiet (h : Remembered m last mem k) (hram : k'.vm.ram = k.vm.ram)
    (hpte : ∀ q, k'.vm.pte q = k.vm.pte q) (hsame : Same k k')
    (hfilled : ∀ f page, k'.Filled f page → k.Filled f page) : Remembered m last mem k' where
  mapped q hq := by
    rw [hpte] at hq
    rw [hram, Vm.frameOf, hpte]
    exact h.mapped q hq
  filled hf := by
    rw [hram]
    exact h.filled (hfilled _ _ hf)
  absent hv huse i hinv := by
    obtain ⟨u, hu, hsupp, hasid, huse⟩ := hsame.users hv huse
    rw [hpte, ← hsupp] at hinv
    rw [← hsupp, ← hasid]
    exact h.absent hu huse i hinv

/-- The pages of a new U-proc are on its device. -/
theorem create {asid : Word} {supp : SuppPtr} {pool : Pool} (h : Remembered m last mem k)
    (hk : PagerInv k) (h0 : (k.vm.supp supp).supAsid = 0) (hlast : ∀ i, last (supp, i) = none)
    (hvm : k'.vm = (k.create p asid supp pool).vm)
    (hproc : k'.proc = (k.create p asid supp pool).proc) :
    Remembered m last (fun q => if q.1 = supp then m.flash (asid.toNat - 1) q.2 else mem q) k' := by
  have hgrows := create_grows hk p asid pool h0
  rw [← hvm] at hgrows
  have hram : k'.vm.ram = k.vm.ram := by rw [hvm]; rfl
  have hpte : ∀ {q : PtePtr}, q.1 ≠ supp → k'.vm.pte q = k.vm.pte q := by
    intro q hq
    rw [hvm, Vm.pte, k.create_supp_of_ne p asid supp pool hq, Vm.pte]
  obtain ⟨free, husers⟩ := hk.users
  have hother : ∀ {r v}, k.proc r = some v → v.phase.uses = true → v.supp ≠ supp := by
    rintro r v hv huse rfl
    obtain ⟨heq, hasid⟩ := husers.asid hv huse
    rw [← heq, h0] at hasid
    exact not_uprocAsid_zero hasid
  have hold : ∀ {r v}, k'.proc r = some v → r = p ∧ v = ⟨asid, supp, .user⟩ ∨
      k.proc r = some v := by
    intro r v hv
    rw [hproc] at hv
    rcases eq_or_ne r p with rfl | hr
    · rw [k.create_self] at hv
      exact .inl ⟨rfl, (Option.some.inj hv).symm⟩
    · exact .inr ((k.create_of_ne p asid supp pool hr).symm.trans hv)
  constructor
  case mapped =>
    intro q hq
    have hne : q.1 ≠ supp := by
      intro heq
      rw [hgrows.valid_eq, hk.unused (heq ▸ h0)] at hq
      cases hq
    rw [if_neg hne, hram, Vm.frameOf, hpte hne]
    exact h.mapped q (hpte hne ▸ hq)
  case filled =>
    rintro f page ⟨r, v, hv, hfull⟩
    rcases hold hv with ⟨-, rfl⟩ | hv
    · exact absurd hfull (Phase.not_filled rfl)
    · have hf : k.Filled f page := ⟨r, v, hv, hfull⟩
      obtain ⟨z, w, σ, hw, hphase, -⟩ := hf.paging
      obtain ⟨hsupp, -⟩ : k.vm.During w.supp (.paging page f σ) := hphase ▸ hk.during hw
      rw [if_neg (hsupp ▸ hother hw (by rw [hphase]; rfl)), hram]
      exact h.filled hf
  case absent =>
    intro r v hv huse i hinv
    rcases hold hv with ⟨-, rfl⟩ | hv
    · rw [hlast, if_pos rfl]
      rfl
    · have hne := hother hv huse
      rw [hpte hne] at hinv
      rw [if_neg hne]
      exact h.absent hv huse i hinv

/-- A store reaches the page of its U-proc, and no other. -/
theorem store {i : Fin maxPages} (offset : Fin 1024) (v : Word) (h : Remembered m last mem k)
    (hk : PagerInv k) (hv : pteEntryIsValid (k.vm.pte (u.supp, i)) = true) :
    Remembered m last
      (Function.update mem (u.supp, i) (Function.update (mem (u.supp, i)) offset v))
      (k.setVm (k.vm.poke (k.vm.frameOf (u.supp, i)) offset v)) where
  mapped q hq := by
    have hq : pteEntryIsValid (k.vm.pte q) = true := hq
    show (k.vm.poke (k.vm.frameOf (u.supp, i)) offset v).ram (k.vm.frameOf q) = _
    rcases eq_or_ne q (u.supp, i) with rfl | hne
    · rw [Function.update_self, ← h.mapped _ hv]
      exact Function.update_self ..
    · rw [Function.update_of_ne hne, k.vm.poke_of_ne offset v fun heq =>
        hne (hk.frameOf_inj hq hv heq)]
      exact h.mapped q hq
  filled := by
    intro f page hf
    obtain ⟨r, w, σ, hw, hphase, hσ⟩ := hf.paging
    obtain ⟨-, hmiss, -⟩ : k.vm.During w.supp (.paging page f σ) := hphase ▸ hk.during hw
    have hne : page ≠ (u.supp, i) := by
      rintro rfl
      rw [hmiss.invalid] at hv
      cases hv
    show (k.vm.poke (k.vm.frameOf (u.supp, i)) offset v).ram (frameNo f) = _
    rw [Function.update_of_ne hne, k.vm.poke_of_ne offset v
      (hk.frameOf_ne hw hphase hσ hv).symm]
    exact h.filled hf
  absent {r w} hw huse j hinv := by
    have hinv : pteEntryIsValid (k.vm.pte (w.supp, j)) = false := hinv
    have hne : (w.supp, j) ≠ (u.supp, i) := by
      intro heq
      rw [heq, hv] at hinv
      cases hinv
    rw [Function.update_of_ne hne]
    exact h.absent hw huse j hinv

/-- Whoever moves while it is inside is the only one that can have filled a frame. -/
theorem filled_alone {φ : Phase} {vm : Vm} (hk : PagerInv k) (hp : k.proc p = some u)
    (hu : u.phase.inside = true) {page : PtePtr}
    (h : ((k.setVm vm).setPhase p u φ).Filled f page) :
    φ = .paging page f .loaded ∨ φ = .paging page f .recorded := by
  obtain ⟨r, v, hv, hfull⟩ := h
  rcases Sys.of_setPhase hv with ⟨-, rfl⟩ | ⟨hr, hv⟩
  · exact hfull
  · exact absurd hfull (Phase.not_filled (hk.alone hp hu hv hr))

/-- The victim leaves its frame. -/
theorem evict {page q : PtePtr} (h : Remembered m last mem k) (hk : PagerInv k)
    (hp : k.proc p = some u) (hu : u.phase = .paging page f .chosen)
    (hocc : frameIsOccupied (k.vm.swapTable f) = true) (hq : (k.vm.swapTable f).swPte = some q)
    (hself : last' q = some (k.vm.ram (frameNo f))) (hother : ∀ r, r ≠ q → last' r = last r) :
    Remembered m last' mem
      ((k.setVm (k.vm.markInvalid q)).setPhase p u (.paging page f .invalidated)) := by
  have hsame : Same k ((k.setVm (k.vm.markInvalid q)).setPhase p u
      (.paging page f .invalidated)) := same_of_move (Vm.markInvalid_keeps ..) hp (by rw [hu]; rfl)
  have hlink : k.vm.Linked f q := by
    obtain ⟨-, -, -, hb⟩ : k.vm.During u.supp (.paging page f .chosen) := hu ▸ hk.during hp
    obtain ⟨r, hr⟩ := Vm.Bijective.linked hb f (by simp) hocc
    obtain rfl := Option.some.inj (hr.swPte.symm.trans hq)
    exact hr
  have hseen : k.vm.ram (frameNo f) = mem q := hlink.frameOf ▸ h.mapped q hlink.valid
  have hinvalid : pteEntryIsValid ((k.vm.markInvalid q).pte q) = false := by
    rw [k.vm.markInvalid_self q, pteEntryIsValid, not_valid_invalidated]
    rfl
  constructor
  case mapped =>
    intro r hr
    have hr : pteEntryIsValid ((k.vm.markInvalid q).pte r) = true := hr
    have hne : r ≠ q := by
      rintro rfl
      rw [hinvalid] at hr
      cases hr
    rw [k.vm.markInvalid_of_ne q r hne] at hr
    have hframe : (k.vm.markInvalid q).frameOf r = k.vm.frameOf r := by
      rw [Vm.frameOf, k.vm.markInvalid_of_ne q r hne, Vm.frameOf]
    show k.vm.ram ((k.vm.markInvalid q).frameOf r) = mem r
    rw [hframe]
    exact h.mapped r hr
  case filled =>
    intro f' page' hf
    rcases filled_alone hk hp (by rw [hu]; rfl) hf with hφ | hφ
    · cases hφ
    · cases hφ
  case absent =>
    intro r v hv huse i hinv
    obtain ⟨w, hw, hsupp, hasid, hwuse⟩ := hsame.users hv huse
    rw [← hsupp, ← hasid]
    rcases eq_or_ne (w.supp, i) q with rfl | hne
    · rw [hself, Option.getD_some, hseen]
    · have hinv : pteEntryIsValid ((k.vm.markInvalid q).pte (v.supp, i)) = false := hinv
      rw [← hsupp, k.vm.markInvalid_of_ne q _ hne] at hinv
      rw [hother _ hne]
      exact h.absent hw hwuse i hinv

/-- The page a U-proc waits for is in its frame. -/
theorem load {page : PtePtr} {d : Int} (h : Remembered m last mem k) (hk : PagerInv k)
    (hstored : Stored m last k) (hp : k.proc p = some u)
    (hu : u.phase = .paging page f (.reading d)) :
    Remembered m last mem ((k.setVm (k.vm.answer d ready)).setPhase p u (.paging page f .loaded)) := by
  obtain ⟨hfst, hmiss, -⟩ : k.vm.During u.supp (.paging page f (.reading d)) := hu ▸ hk.during hp
  obtain ⟨hd, hdtp⟩ := hk.reads hp hu
  obtain ⟨free, husers⟩ := hk.users
  have huse : u.phase.uses = true := by
    rw [hu]
    rfl
  have hpage : (u.supp, page.2) = page := Prod.ext hfst.symm rfl
  have hinv : pteEntryIsValid (k.vm.pte (u.supp, page.2)) = false := hpage ▸ hmiss.invalid
  have hblock : k.vm.flash d page.2 = mem page := by
    rw [hd, hfst, (husers.asid hp huse).1]
    have hseen := h.absent hp huse page.2 hinv
    rw [hpage] at hseen
    rw [← hseen, ← hpage]
    exact hstored.stored hp huse page.2 hinv fun j hj =>
      absurd hj (hk.not_inFlight hp (by rw [hu]; rfl) (by rw [hu]; rfl))
  have hram : (k.vm.answer d ready).ram = Function.update k.vm.ram (frameNo f) (mem page) := by
    rw [Vm.answer_read hdtp, hblock]
  have hsame : Same k ((k.setVm (k.vm.answer d ready)).setPhase p u (.paging page f .loaded)) :=
    same_of_move (.of_supp rfl) hp (by rw [hu]; rfl)
  constructor
  case mapped =>
    intro q hq
    have hq : pteEntryIsValid (k.vm.pte q) = true := hq
    show (k.vm.answer d ready).ram (k.vm.frameOf q) = mem q
    rw [hram, Function.update_of_ne (hk.frameOf_ne hp hu (by simp) hq)]
    exact h.mapped q hq
  case filled =>
    intro f' page' hf
    have hφ := filled_alone hk hp (by rw [hu]; rfl) hf
    obtain ⟨rfl, rfl, -⟩ := Phase.paging.inj (hφ.resolve_right (by simp))
    show (k.vm.answer d ready).ram (frameNo f) = mem page
    rw [hram, Function.update_self]
  case absent =>
    intro r v hv hvuse i hinv
    obtain ⟨w, hw, hsupp, hasid, hwuse⟩ := hsame.users hv hvuse
    have hinv : pteEntryIsValid (k.vm.pte (v.supp, i)) = false := hinv
    rw [← hsupp] at hinv
    rw [← hsupp, ← hasid]
    exact h.absent hw hwuse i hinv

/-- The page is mapped to its frame. -/
theorem map {page : PtePtr} (h : Remembered m last mem k) (hk : PagerInv k)
    (hp : k.proc p = some u) (hu : u.phase = .paging page f .recorded) :
    Remembered m last mem ((k.setVm (k.vm.markValidAndUpdateTLB page)).setPhase p u .mapped) := by
  obtain ⟨-, hmiss, hindex, hb, hrec⟩ : k.vm.During u.supp (.paging page f .recorded) :=
    hu ▸ hk.during hp
  have hlink := (hb.map hmiss hrec hindex).2
  have hsame : Same k ((k.setVm (k.vm.markValidAndUpdateTLB page)).setPhase p u .mapped) :=
    same_of_move (Vm.markValidAndUpdateTLB_keeps ..) hp (by rw [hu]; rfl)
  constructor
  case mapped =>
    intro q hq
    have hq : pteEntryIsValid ((k.vm.markValidAndUpdateTLB page).pte q) = true := hq
    show k.vm.ram ((k.vm.markValidAndUpdateTLB page).frameOf q) = mem q
    rcases eq_or_ne q page with rfl | hne
    · rw [hlink.frameOf]
      exact h.filled ⟨p, u, hp, .inr hu⟩
    · rw [Vm.frameOf, k.vm.markValid_of_ne page q hne]
      exact h.mapped q (k.vm.markValid_of_ne page q hne ▸ hq)
  case filled =>
    intro f' page' hf
    rcases filled_alone hk hp (by rw [hu]; rfl) hf with hφ | hφ
    · cases hφ
    · cases hφ
  case absent =>
    intro r v hv huse i hinv
    obtain ⟨w, hw, hsupp, hasid, hwuse⟩ := hsame.users hv huse
    have hinv : pteEntryIsValid ((k.vm.markValidAndUpdateTLB page).pte (v.supp, i)) = false := hinv
    rw [← hsupp] at hinv
    rw [← hsupp, ← hasid]
    have hne : (w.supp, i) ≠ page := by
      rintro rfl
      rw [k.vm.markValid_valid] at hinv
      cases hinv
    rw [k.vm.markValid_of_ne page _ hne] at hinv
    exact h.absent hw hwuse i hinv

end Remembered

/-! ## Runs -/

structure MemoryInv (m : Machine) (tr : List Entry) (k : Sys) : Prop where
  contents : ContentsInv m tr k
  remembered : Remembered m (lastEvicted tr) (memory m tr) k

theorem MemoryInv.step {m : Machine} (h : MemoryInv m tr k) (hs : Phase3.step k e = some k')
    (hx : Pages ⟨k, e, k'⟩) (hm : Mirrors ⟨k, e, k'⟩) :
    MemoryInv m (tr ++ [⟨k, e, k'⟩]) k' := by
  obtain ⟨hc, hr⟩ := h
  refine ⟨hc.step hs hx hm, ?_⟩
  have hlast : (∀ q, evicts q ⟨k, e, k'⟩ = none) →
      lastEvicted (tr ++ [⟨k, e, k'⟩]) = lastEvicted tr := fun hno => by
    funext q
    rw [lastEvicted_snoc, hno, Option.none_or]
  rw [memory_snoc]
  cases (step_outcome hs).memoryMove hc.pager hx with
  | quiet hseen hno hram hpte hsame hfilled =>
      rw [hseen, hlast hno]
      exact hr.quiet hram hpte hsame hfilled
  | @create p asid supp pool hp hasid hseen hno hvm hproc =>
      have hself : k'.proc p = some ⟨asid, supp, .user⟩ := by
        rw [hproc, Sys.create_self]
      have h0 := hx.table p _ hp hself
      rw [hseen, hlast hno]
      exact hr.create hc.pager h0 (fun i => hc.stored.fresh h0 i) hvm hproc
  | @store p u i offset v he hp hv hk =>
      subst he hk
      rw [hlast (evicts_of_event (by simp))]
      have hseen : ∀ k', remember m (memory m tr) ⟨k, .store p i offset v, k'⟩ =
          Function.update (memory m tr) (u.supp, i)
            (Function.update (memory m tr (u.supp, i)) offset v) := by
        simp [remember, hp]
      rw [hseen]
      exact hr.store offset v hc.pager hv
  | @evict p u page f q he hp hu hocc hq hk =>
      subst he hk
      refine hr.evict hc.pager hp hu hocc hq ?_ fun r hne => ?_
      · rw [lastEvicted_snoc]
        simp [evicts, hp, hu, Phase.victim, hocc, hq]
      · rw [lastEvicted_snoc]
        simp [evicts, hp, hu, Phase.victim, hocc, hq, hne.symm]
  | load he hp hu hk =>
      subst he hk
      rw [hlast (evicts_of_event (by simp))]
      exact hr.load hc.pager hc.stored hp hu
  | map he hp hu hk =>
      subst he hk
      rw [hlast (evicts_next hp (by rw [hu]; rfl))]
      exact hr.map hc.pager hp hu

theorem Machine.start_memory (m : Machine) : MemoryInv m [] m.start where
  contents := m.start_contents
  remembered :=
    { mapped := by
        intro q hq
        rw [m.start_pager.unused rfl] at hq
        cases hq
      filled := by
        rintro f page ⟨p, u, hu, -⟩
        cases hu
      absent := nofun }

theorem Run.memory {m : Machine} (h : Run m tr k) (hx : ∀ x ∈ tr, Pages x)
    (hm : ∀ x ∈ tr, Mirrors x) : MemoryInv m tr k :=
  h.invariant (P := MemoryInv m) (G := fun x => Pages x ∧ Mirrors x)
    (fun x hmem => ⟨hx x hmem, hm x hmem⟩) m.start_memory fun h hs hx => h.step hs hx.1 hx.2

/-- In every run that keeps the contents of pages: a page of a U-proc that is
valid is in its frame as the U-proc sees it, and otherwise on its device, or in
the frame from which it is on its way there. -/
theorem private_memory {m : Machine} (h : Run m tr k) (hx : ∀ x ∈ tr, Pages x)
    (hm : ∀ x ∈ tr, Mirrors x) (hp : k.proc p = some u) (huse : u.phase.uses = true)
    (i : Fin maxPages) :
    (pteEntryIsValid (k.vm.pte (u.supp, i)) = true →
      k.vm.ram (k.vm.frameOf (u.supp, i)) = memory m tr (u.supp, i)) ∧
    (pteEntryIsValid (k.vm.pte (u.supp, i)) = false →
      (∀ f, k.InFlight f → (k.vm.swapTable f).swPte ≠ some (u.supp, i)) →
        k.vm.flash (u.asid.toNat - 1) i = memory m tr (u.supp, i)) ∧
    ∀ f, k.InFlight f → (k.vm.swapTable f).swPte = some (u.supp, i) →
      k.vm.ram (frameNo f) = memory m tr (u.supp, i) := by
  obtain ⟨hc, hr⟩ := h.memory hx hm
  refine ⟨hr.mapped _, fun hinv hno => ?_, fun f hf hq => ?_⟩
  · exact (hc.stored.stored hp huse i hinv hno).trans (hr.absent hp huse i hinv)
  · have hinv : pteEntryIsValid (k.vm.pte (u.supp, i)) = false := by
      obtain ⟨-, q, hevicted⟩ := hc.pager.flight hf
      obtain rfl := Option.some.inj (hevicted.swPte.symm.trans hq)
      rw [pteEntryIsValid, hevicted.entryLo, ← present_invalidated, not_valid_invalidated]
      rfl
    rw [← hr.absent hp huse i hinv, hc.stored.flying hf hq, Option.getD_some]

/-- The physical page to which the TLB takes an access. -/
def Sys.translate (k : Sys) (u : Uproc) (vAddr : Word) : Option Nat :=
  (tlbp k.vm.tlb (u.entryHi vAddr)).bind fun j =>
    if pteEntryIsValid (k.vm.tlb j) then some (entryLoGetPfn (k.vm.tlb j).entryLo).toNat else none

/-- An access of a U-proc that computes, to an address of its page `i`. -/
theorem translated_memory {m : Machine} (h : Run m tr k) (hx : ∀ x ∈ tr, Pages x)
    (hm : ∀ x ∈ tr, Mirrors x) (htlb : ∀ x ∈ tr, Started x ∧ Spares x) (hp : k.proc p = some u)
    (hu : u.phase = .user) {vAddr : Word} (hlo : 0x80000000 ≤ vAddr) (hhi : vAddr < 0xC0000000)
    {i : Fin maxPages} (hi : getMissingPage (k.vm.supp u.supp) vAddr = some i) {n : Nat}
    (hn : k.translate u vAddr = some n) : k.vm.ram n = memory m tr (u.supp, i) := by
  obtain ⟨free, husers⟩ := (h.tlb htlb).users
  obtain ⟨hpage, hentry, hasid⟩ := husers.uprocPage hp hu i
  obtain ⟨j, hj, hn⟩ := Option.bind_eq_some_iff.mp hn
  obtain ⟨hv, hn⟩ := Option.ite_none_right_eq_some.mp hn
  obtain rfl := Option.some.inj hn
  have hvpn : entryHiGetVpn (pageHi u.asid i) = entryHiGetVpn vAddr := by
    rw [← hentry]
    exact getMissingPage_some hi
  have hlow : (k.vm.tlb j).entryLo = (k.vm.pte (u.supp, i)).entryLo := by
    refine (h.tlb htlb).coherent.lo hpage ?_
    rw [hentry, tlbp_some hj, hiKey_entryHi hasid hlo hhi hvpn]
  have hvalid : pteEntryIsValid (k.vm.pte (u.supp, i)) = true := by
    rw [← hv, pteEntryIsValid, pteEntryIsValid, hlow]
  rw [hlow]
  exact (h.memory hx hm).remembered.mapped _ hvalid

end

/-- A U-proc gets its first page. -/
def getsPage (p : PcbPtr) : List Event :=
  [.fault p (firstFault 0), .next p, .next p, .next p, .next p, .next p, .flashDone p ready,
    .next p, .next p, .next p]

/-- Two U-procs store at the same address. -/
def bothStore : List Event :=
  [.root 1, .root 2] ++ getsPage 1 ++ getsPage 2 ++ [.store 1 0 5 42, .store 2 0 5 43]

/-- Each finds what it has stored, and else the image of its own device. -/
theorem private_memory_bothStore : ∃ tr k,
    Run { Machine.zero with flash := fun d _ _ => BitVec.ofInt 32 d } tr k ∧
      tr.map Trace.Entry.event = bothStore ∧
      k.vm.ram (k.vm.frameOf (7, 0)) 5 = 42 ∧ k.vm.ram (k.vm.frameOf (6, 0)) 5 = 43 ∧
      k.vm.ram (k.vm.frameOf (7, 0)) 6 = 0 ∧ k.vm.ram (k.vm.frameOf (6, 0)) 6 = 1 := by
  have hany : (Trace.exec step
      (Machine.start { Machine.zero with flash := fun d _ _ => BitVec.ofInt 32 d }) bothStore).any
        (fun x => ((x.2.proc 1).any fun u => u.supp = 7 ∧ u.phase.uses) = true ∧
          ((x.2.proc 2).any fun u => u.supp = 6 ∧ u.phase.uses) = true ∧
          pteEntryIsValid (x.2.vm.pte (7, 0)) = true ∧ pteEntryIsValid (x.2.vm.pte (6, 0)) = true ∧
          let mem := memory { Machine.zero with flash := fun d _ _ => BitVec.ofInt 32 d } x.1
          mem (7, 0) 5 = 42 ∧ mem (6, 0) 5 = 43 ∧ mem (7, 0) 6 = 0 ∧ mem (6, 0) 6 = 1 ∧
            ∀ z ∈ x.1, checksPages z = true ∧ Mirrors z) = true := by
    decide +kernel
  obtain ⟨tr, k, hrun, hevents, h⟩ := Trace.run_of_any hany
  obtain ⟨h1, h2, hv1, hv2, hm1, hm2, hm1', hm2', hx⟩ := of_decide_eq_true h
  obtain ⟨u, hu, h1⟩ := Option.any_eq_true .. |>.mp h1
  obtain ⟨w, hw, h2⟩ := Option.any_eq_true .. |>.mp h2
  obtain ⟨hsu, huse⟩ := of_decide_eq_true h1
  obtain ⟨hsw, hwse⟩ := of_decide_eq_true h2
  have hpages := pages_of_checks hrun fun z hz => (hx z hz).1
  have hmirrors := fun z hz => (hx z hz).2
  have hu0 := (private_memory hrun hpages hmirrors hu huse 0).1 (hsu ▸ hv1)
  have hw0 := (private_memory hrun hpages hmirrors hw hwse 0).1 (hsw ▸ hv2)
  rw [hsu] at hu0
  rw [hsw] at hw0
  refine ⟨tr, k, hrun, hevents, ?_, ?_, ?_, ?_⟩
  · rw [hu0, hm1]
  · rw [hw0, hm2]
  · rw [hu0, hm1']
  · rw [hw0, hm2']

/-- After a refill the TLB leads both to what they have stored. -/
theorem translated_memory_bothStore : ∃ tr k u w n n', Run .zero tr k ∧
    tr.map Trace.Entry.event = bothStore ++ [.refill 1 0x80000014, .refill 2 0x80000014] ∧
      k.proc 1 = some u ∧ k.proc 2 = some w ∧ k.translate u 0x80000014 = some n ∧
      k.translate w 0x80000014 = some n' ∧ k.vm.ram n 5 = 42 ∧ k.vm.ram n' 5 = 43 := by
  have hany : (Trace.exec step Machine.zero.start
      (bothStore ++ [.refill 1 0x80000014, .refill 2 0x80000014])).any (fun x =>
        ((x.2.proc 1).any fun u => u.phase = .user ∧
          getMissingPage (x.2.vm.supp u.supp) 0x80000014 = some 0 ∧
          (x.2.translate u 0x80000014).isSome = true ∧ memory .zero x.1 (u.supp, 0) 5 = 42) = true ∧
        ((x.2.proc 2).any fun u => u.phase = .user ∧
          getMissingPage (x.2.vm.supp u.supp) 0x80000014 = some 0 ∧
          (x.2.translate u 0x80000014).isSome = true ∧ memory .zero x.1 (u.supp, 0) 5 = 43) = true ∧
        ∀ z ∈ x.1, checksPages z = true ∧ Mirrors z) = true := by
    decide +kernel
  obtain ⟨tr, k, hrun, hevents, h⟩ := Trace.run_of_any hany
  obtain ⟨h1, h2, hx⟩ := of_decide_eq_true h
  have hpages := pages_of_checks hrun fun z hz => (hx z hz).1
  have hmirrors := fun z hz => (hx z hz).2
  have htlb : ∀ x ∈ tr, Started x ∧ Spares x := by
    intro x hmem
    have hev := List.mem_map_of_mem (f := Trace.Entry.event) hmem
    rw [hevents] at hev
    constructor
    · intro p asid he
      rw [he] at hev
      simp [bothStore, getsPage] at hev
    · intro p badVAddr u i he _ _
      rw [he] at hev
      have hlow : badVAddr = 0x80000014 := by
        simp [bothStore, getsPage] at hev
        exact hev.elim And.right And.right
      exact .inl (by rw [hlow]; decide)
  obtain ⟨u, hu, h1⟩ := Option.any_eq_true .. |>.mp h1
  obtain ⟨w, hw, h2⟩ := Option.any_eq_true .. |>.mp h2
  obtain ⟨hφ, hi, hn, hm1⟩ := of_decide_eq_true h1
  obtain ⟨hψ, hi', hn', hm2⟩ := of_decide_eq_true h2
  obtain ⟨n, hn⟩ := Option.isSome_iff_exists.mp hn
  obtain ⟨n', hn'⟩ := Option.isSome_iff_exists.mp hn'
  refine ⟨tr, k, u, w, n, n', hrun, hevents, hu, hw, hn, hn', ?_, ?_⟩
  · rw [translated_memory hrun hpages hmirrors htlb hu hφ (by decide) (by decide) hi hn, hm1]
  · rw [translated_memory hrun hpages hmirrors htlb hw hψ (by decide) (by decide) hi' hn', hm2]

end Pandos.Phase3
