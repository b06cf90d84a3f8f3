/-
# `Pandos.Phase3.FlashErrors` — the two `IOWAIT`s of a page fault

Once its frame is chosen, a page fault waits for a flash device twice: for the
page that leaves the frame, if there is one, and for the page that is missing
(`writeStatus`, `readStatus`).  The statuses come back and are dropped, so the
pager goes on as if both were `READY`.

A fault whose statuses are all `READY` is safe in every respect
(`FlashChecked`), and no other is, once the page has been mapped: whatever a
device has reported, the U-proc resumes with the page (`flash_checked`).
-/
import Pandos.Phase3.PageFault

namespace Pandos.Phase3

/-! ## Statuses -/

def Sys.phase (k : Sys) (p : PcbPtr) : Option Phase := (k.proc p).map Uproc.phase

/-- The page a process pages in, and its frame. -/
def Phase.serving : Phase → Option (PtePtr × Fin poolSize)
  | .paging page frame _ => some (page, frame)
  | .user | .acquiring | .waiting | .holding | .found _ | .mapped | .terminating | .deallocated
  | .notified | .stray => none

/-- In the `IOWAIT` of `writeFromPoolToDev`. -/
def Phase.writes : Phase → Bool
  | .paging _ _ (.writing _) => true
  | _ => false

/-- In the `IOWAIT` of `writeFromDevToPool`. -/
def Phase.reads : Phase → Bool
  | .paging _ _ (.reading _) => true
  | _ => false

/-- What an `IOWAIT` of `p` in one of these phases returns in a step. -/
def returned (p : PcbPtr) (waits : Phase → Bool) (x : Entry) : Option Word :=
  match x.event with
  | .flashDone r status => if r = p ∧ (x.before.phase p).any waits then some status else none
  | .root _ | .spawn _ _ | .store _ _ _ _ | .refill _ _ | .fault _ _ | .except _ _ | .next _ => none

/-- What the write-backs of `p` have returned. -/
def writeStatus (p : PcbPtr) (tr : List Entry) : List Word := tr.filterMap (returned p Phase.writes)

/-- What the reads of `p` have returned. -/
def readStatus (p : PcbPtr) (tr : List Entry) : List Word := tr.filterMap (returned p Phase.reads)

/-! ## Faults -/

/-- The run `tr` leads from the choice of `frame` for `page`, which `p` has
missed, at most to the point where the page is mapped. -/
structure Pass (p : PcbPtr) (page : PtePtr) (frame : Fin poolSize) (k : Sys) (tr : List Entry)
    (k' : Sys) : Prop where
  run : Trace.Run step k tr k'
  start : k.phase p = some (.paging page frame .chosen)
  serves : ∀ x ∈ tr, (x.before.phase p).bind Phase.serving = some (page, frame)

/-- Every flash device `p` has waited for has answered `READY`. -/
def FlashReady (p : PcbPtr) (tr : List Entry) : Prop :=
  ∀ x ∈ tr, ∀ status, x.event = .flashDone p status → status = ready

/-- The frame is overwritten, or its entry in the swap pool table is. -/
def GivesUp (p : PcbPtr) (page : PtePtr) (frame : Fin poolSize) (x : Entry) : Prop :=
  (∃ d, x.after.phase p = some (.paging page frame (.reading d))) ∨
    x.after.vm.swapTable frame ≠ x.before.vm.swapTable frame

/-- Flash failures corrupt nothing: the page is mapped and recorded after a
read that was successful, the frame is reused after a write-back that was, and
after a failure `p` does not resume with the page. -/
structure FlashChecked (p : PcbPtr) (page : PtePtr) (frame : Fin poolSize) (k : Sys)
    (tr : List Entry) (k' : Sys) : Prop where
  maps : ∀ {a x b}, tr = a ++ x :: b → pteEntryIsValid (x.before.vm.pte page) = false →
    pteEntryIsValid (x.after.vm.pte page) = true → readStatus p a = [ready]
  records : ∀ {a x b} i, tr = a ++ x :: b → (x.before.vm.swapTable i).swPte ≠ some page →
    (x.after.vm.swapTable i).swPte = some page → readStatus p a = [ready]
  givesUp : frameIsOccupied (k.vm.swapTable frame) = true → ∀ {a x b}, tr = a ++ x :: b →
    GivesUp p page frame x → writeStatus p a = [ready]
  resumes : ∀ {k''}, step k' (.next p) = some k'' → k''.phase p = some .user →
    pteEntryIsValid (k''.vm.pte page) = true → FlashReady p tr

section
variable {k k' : Sys} {p : PcbPtr} {u : Uproc} {e : Event} {page : PtePtr} {frame : Fin poolSize}
  {s s' : Stage} {tr : List Entry} {x : Entry} {occ : Bool} {waits : Phase → Bool}

theorem Sys.phase_eq {φ : Phase} :
    k.phase p = some φ ↔ ∃ u, k.proc p = some u ∧ u.phase = φ := Option.map_eq_some_iff

theorem Sys.phase_setPhase (k : Sys) (p : PcbPtr) (u : Uproc) (φ : Phase) :
    (k.setPhase p u φ).phase p = some φ := by
  rw [Sys.phase, Sys.setPhase_self]
  rfl

theorem Phase.serving_eq {o : Option Phase} (h : o.bind Phase.serving = some (page, frame)) :
    ∃ s, o = some (.paging page frame s) := by
  obtain ⟨φ, rfl, h⟩ := Option.bind_eq_some_iff.mp h
  cases φ with
  | paging r f s =>
      obtain ⟨rfl, rfl⟩ := Prod.mk.inj (Option.some.inj h)
      exact ⟨s, rfl⟩
  | user | acquiring | waiting | holding | found _ | mapped | terminating | deallocated | notified
  | stray => cases h

theorem returned_of_ne (h : ∀ status, x.event ≠ .flashDone p status) :
    returned p waits x = none := by
  unfold returned
  split
  next r status he =>
    refine if_neg ?_
    rintro ⟨rfl, -⟩
    exact h status he
  all_goals rfl

theorem returned_flashDone (status : Word) (k' : Sys) {φ : Phase} (h : k.phase p = some φ) :
    returned p waits ⟨k, .flashDone p status, k'⟩ = if waits φ then some status else none := by
  simp [returned, h]

theorem returned_mem {status : Word} (h : status ∈ tr.filterMap (returned p waits)) :
    ∃ x ∈ tr, x.event = .flashDone p status := by
  obtain ⟨x, hx, h⟩ := List.mem_filterMap.mp h
  refine ⟨x, hx, ?_⟩
  unfold returned at h
  split at h
  next r st he =>
    obtain ⟨⟨hr, -⟩, h⟩ := Option.ite_none_right_eq_some.mp h
    obtain rfl := Option.some.inj h
    exact hr ▸ he
  all_goals cases h

/-- One status, if all are `READY`. -/
theorem FlashReady.eq (h : FlashReady p tr) (hlen : (tr.filterMap (returned p waits)).length = 1) :
    tr.filterMap (returned p waits) = [ready] := by
  obtain ⟨status, hs⟩ := List.length_eq_one_iff.mp hlen
  have hmem : status ∈ tr.filterMap (returned p waits) := by
    rw [hs]
    exact List.mem_singleton_self status
  obtain ⟨x, hx, he⟩ := returned_mem hmem
  rw [hs, h x hx status he]

/-! ## Steps -/

/-- One stage leads to the next, if the chosen frame was occupied or not. -/
inductive Stage.Advance (p : PcbPtr) (occ : Bool) : Stage → Event → Stage → Prop where
  | evict (h : occ = true) : Advance p occ .chosen (.next p) .invalidated
  | skip (h : occ = false) : Advance p occ .chosen (.next p) .vacated
  | writeOut (d) : Advance p occ .invalidated (.next p) (.writing d)
  | wrote (d status) : Advance p occ (.writing d) (.flashDone p status) .vacated
  | readIn (d) : Advance p occ .vacated (.next p) (.reading d)
  | loaded (d status) : Advance p occ (.reading d) (.flashDone p status) .loaded

/-- A step while `p` is at the stage `s` of its fault. -/
inductive PassMove (p : PcbPtr) (page : PtePtr) (frame : Fin poolSize) (k : Sys) :
    Stage → Event → Sys → Prop where
  | foreign {s : Stage} {e : Event} {k' : Sys} (he : Foreign p e)
      (hproc : ∀ v, k'.proc p = some v → k.proc p = some v)
      (hswap : k'.vm.swapTable = k.vm.swapTable)
      (hvalid : pteEntryIsValid (k'.vm.pte page) = true → pteEntryIsValid (k.vm.pte page) = true) :
      PassMove p page frame k s e k'
  | moves {s s' : Stage} {e : Event} {k' : Sys}
      (hs : s.Advance p (frameIsOccupied (k.vm.swapTable frame)) e s')
      (hphase : k'.phase p = some (.paging page frame s'))
      (hswap : k'.vm.swapTable = k.vm.swapTable)
      (hvalid : pteEntryIsValid (k'.vm.pte page) = true → pteEntryIsValid (k.vm.pte page) = true) :
      PassMove p page frame k s e k'
  | records {k' : Sys} (hphase : k'.phase p = some (.paging page frame .recorded))
      (hvalid : pteEntryIsValid (k'.vm.pte page) = true → pteEntryIsValid (k.vm.pte page) = true) :
      PassMove p page frame k .loaded (.next p) k'
  | maps {k' : Sys} (hphase : k'.phase p = some .mapped) (hswap : k'.vm.swapTable = k.vm.swapTable)
      (hvalid : pteEntryIsValid (k'.vm.pte page) = true) :
      PassMove p page frame k .recorded (.next p) k'

/-- Whoever else is inside is `p`. -/
theorem Foreign.outside {r : PcbPtr} {w : Uproc} (he : Foreign p (.next r)) (hl : k.Locks)
    (hp : k.Inside p) (hr : k.proc r = some w) : w.phase.inside = false := by
  cases hw : w.phase.inside with
  | false => rfl
  | true => exact absurd (congrArg Event.next (hl.unique ⟨w, hr, hw⟩ hp)) he.1

/-- Others do not move `p` while it is inside. -/
theorem Outcome.foreign_proc (h : Outcome k e k') (hl : k.Locks) (he : Foreign p e)
    (hp : k.proc p = some u) (hu : u.phase.inside = true) {v : Uproc} (hv : k'.proc p = some v) :
    k.proc p = some v := by
  have hne : ∀ {r w}, k.proc r = some w → w.phase.inside = false → p ≠ r := by
    rintro r w hr hw rfl
    obtain rfl := Option.some.inj (hr.symm.trans hp)
    rw [hw] at hu
    cases hu
  have hnone : ∀ {r}, k.proc r = none → p ≠ r := by
    rintro r hr rfl
    cases hr.symm.trans hp
  cases h with
  | allCreated _ _ | rootDown _ _ | rootReturns _ _ | store _ _ _ | refill _ _ _ _ _ => exact hv
  | rootEnds _ => cases hv
  | @created _ _ supp pool _ _ _ hr =>
      exact (k.create_of_ne _ _ supp pool (hnone hr)).symm.trans hv
  | @spawned _ asid supp pool _ _ hr =>
      exact (k.create_of_ne _ asid supp pool (hnone hr)).symm.trans hv
  | refillEnds hr hw _ _ _ =>
      exact (k.termProcess_of_ne _ (hne hr (by rw [hw]; rfl))).symm.trans hv
  | fault hr hw | except hr hw =>
      exact (Sys.setPhase_of_ne _ _ _ _ (hne hr (by rw [hw]; rfl))).symm.trans hv
  | release hr hw =>
      have hout := he.outside hl ⟨u, hp, hu⟩ hr
      rw [hw] at hout
      cases hout
  | missing _ _ _ | gone _ _ =>
      exact (k.termProcess_of_ne _ fun h => he.1 (congrArg Event.next h.symm)).symm.trans hv
  | acquire _ _ | find _ _ _ | choose _ _ | evict _ _ _ _ | skip _ _ _ | writeOut _ _ _
  | readIn _ _ | record _ _ | map _ _ | dealloc _ _ | notify _ _ =>
      exact (Sys.setPhase_of_ne _ _ _ _ fun h => he.1 (congrArg Event.next h.symm)).symm.trans hv
  | @wrote _ _ _ _ _ status _ _ | @loaded _ _ _ _ _ status _ _ =>
      exact (Sys.setPhase_of_ne _ _ _ _
        fun h => he.2 status (congrArg (Event.flashDone · status) h.symm)).symm.trans hv

/-- The pages of a new process are not valid. -/
theorem create_valid (p : PcbPtr) (asid : Word) (supp : SuppPtr) (pool : Pool) {q : PtePtr}
    (h : pteEntryIsValid ((k.create p asid supp pool).vm.pte q) = true) :
    pteEntryIsValid (k.vm.pte q) = true := by
  rcases eq_or_ne q.1 supp with hq | hq
  · have hdirty : (dirtyOn : Word) &&& validOn = 0 := by decide
    have hlo : ((k.create p asid supp pool).vm.pte q).entryLo = dirtyOn := by
      rw [Vm.pte, hq, k.create_supp_self p asid supp pool]
      rfl
    rw [pteEntryIsValid, hlo, hdirty] at h
    exact absurd h (by decide)
  · rw [Vm.pte, k.create_supp_of_ne p asid supp pool hq] at h
    exact h

/-- While `p` is inside, others make no page valid and leave the swap pool table alone. -/
theorem Outcome.foreign_tables (h : Outcome k e k') (hl : k.Locks) (he : Foreign p e)
    (hp : k.Inside p) : k'.vm.swapTable = k.vm.swapTable ∧ ∀ q,
      pteEntryIsValid (k'.vm.pte q) = true → pteEntryIsValid (k.vm.pte q) = true := by
  cases h with
  | @created p _ supp pool _ _ _ _ => exact ⟨rfl, fun _ => create_valid p _ supp pool⟩
  | @spawned p asid supp pool _ _ _ => exact ⟨rfl, fun _ => create_valid p asid supp pool⟩
  | @fault _ _ saved _ _ | @except _ _ saved _ _ =>
      exact ⟨rfl, fun q hq => by rwa [Sys.setPhase_vm, Sys.setVm_vm, Vm.passup_pte] at hq⟩
  | evict hr hw _ _ | record hr hw | map hr hw =>
      have hout := he.outside hl hp hr
      rw [hw] at hout
      cases hout
  | allCreated _ _ | rootDown _ _ | rootReturns _ _ | rootEnds _ | store _ _ _ | refill _ _ _ _ _
  | refillEnds _ _ _ _ _ | acquire _ _ | missing _ _ _ | find _ _ _ | choose _ _ | skip _ _ _
  | writeOut _ _ _ | readIn _ _ | release _ _ | dealloc _ _ | notify _ _ | gone _ _ | wrote _ _
  | loaded _ _ => exact ⟨rfl, fun _ => id⟩

theorem markInvalid_valid {vm : Vm} {q r : PtePtr}
    (h : pteEntryIsValid ((vm.markInvalid q).pte r) = true) :
    pteEntryIsValid (vm.pte r) = true := by
  rcases eq_or_ne r q with rfl | hr
  · rw [Vm.markInvalid_self, pteEntryIsValid, not_valid_invalidated] at h
    exact absurd h (by decide)
  · rwa [vm.markInvalid_of_ne q r hr] at h

/-- `handleTLBInvalid` goes on. -/
theorem pageIn_passMove (h : k.pageIn p u page frame s = some k') :
    PassMove p page frame k s (.next p) k' := by
  cases s with
  | chosen =>
      simp only [Sys.pageIn] at h
      split at h
      next hocc =>
        obtain ⟨q, hq, rfl⟩ := Option.map_eq_some_iff.mp h
        exact .moves (.evict hocc) (Sys.phase_setPhase ..) rfl markInvalid_valid
      next hocc =>
        obtain rfl := Option.some.inj h
        exact .moves (.skip (by simpa using hocc)) (Sys.phase_setPhase ..) rfl id
  | invalidated =>
      obtain ⟨q, hq, rfl⟩ := Option.map_eq_some_iff.mp h
      exact .moves (.writeOut _) (Sys.phase_setPhase ..) rfl id
  | vacated =>
      obtain rfl := Option.some.inj h
      exact .moves (.readIn _) (Sys.phase_setPhase ..) rfl id
  | loaded =>
      obtain rfl := Option.some.inj h
      exact .records (Sys.phase_setPhase ..) id
  | recorded =>
      obtain rfl := Option.some.inj h
      exact .maps (Sys.phase_setPhase ..) rfl (k.vm.markValid_valid page)
  | writing _ | reading _ => cases h

theorem flashDone_passMove {status : Word} (hu : u.phase = .paging page frame s)
    (h : k.flashDone p u status = some k') :
    PassMove p page frame k s (.flashDone p status) k' := by
  unfold Sys.flashDone at h
  rw [hu] at h
  cases s with
  | writing d =>
      obtain rfl := Option.some.inj h
      exact .moves (.wrote d status) (Sys.phase_setPhase ..) rfl id
  | reading d =>
      obtain rfl := Option.some.inj h
      exact .moves (.loaded d status) (Sys.phase_setPhase ..) rfl id
  | chosen | invalidated | vacated | loaded | recorded => cases h

theorem step_passMove (hs : step k e = some k') (hl : k.Locks)
    (hp : k.phase p = some (.paging page frame s)) : PassMove p page frame k s e k' := by
  obtain ⟨u, hu, hphase⟩ := Sys.phase_eq.mp hp
  by_cases he : Foreign p e
  · have hin : u.phase.inside = true := by
      rw [hphase]
      rfl
    have hout := step_outcome hs
    obtain ⟨hswap, hvalid⟩ := hout.foreign_tables hl he ⟨u, hu, hin⟩
    exact .foreign he (fun v hv => hout.foreign_proc hl he hu hin hv) hswap (hvalid page)
  · rw [Foreign, not_and_or, not_not, not_forall] at he
    rcases he with rfl | ⟨status, he⟩
    · simp only [step, hu, Option.bind_some, Sys.next, hphase] at hs
      exact pageIn_passMove hs
    · obtain rfl := not_not.mp he
      simp only [step, hu, Option.bind_some] at hs
      exact flashDone_passMove hphase hs

/-! ## Stages -/

/-- What has been returned up to a stage. -/
def Stage.Reports (occ : Bool) (written read : List Word) : Stage → Prop
  | .chosen => written = [] ∧ read = []
  | .invalidated | .writing _ => occ = true ∧ written = [] ∧ read = []
  | .vacated | .reading _ => written.length = occ.toNat ∧ read = []
  | .loaded | .recorded => written.length = occ.toNat ∧ read.length = 1

/-- The fault of `p` has come so far, with the frame occupied before or not. -/
structure Served (p : PcbPtr) (page : PtePtr) (frame : Fin poolSize) (occ : Bool)
    (tr : List Entry) (k : Sys) : Prop where
  locks : k.Locks
  occupied : k.phase p = some (.paging page frame .chosen) →
    frameIsOccupied (k.vm.swapTable frame) = occ
  reports : ∀ s, k.phase p = some (.paging page frame s) →
    s.Reports occ (writeStatus p tr) (readStatus p tr)

/-- Other steps return nothing. -/
theorem status_snoc (tr : List Entry) (k' : Sys) (h : ∀ status, e ≠ .flashDone p status) :
    writeStatus p (tr ++ [⟨k, e, k'⟩]) = writeStatus p tr ∧
      readStatus p (tr ++ [⟨k, e, k'⟩]) = readStatus p tr := by
  constructor
  · exact (Trace.filterMap_snoc tr (returned_of_ne h)).trans (List.append_nil _)
  · exact (Trace.filterMap_snoc tr (returned_of_ne h)).trans (List.append_nil _)

theorem status_wrote {d : Int} (tr : List Entry) (k' : Sys) (status : Word)
    (h : k.phase p = some (.paging page frame (.writing d))) :
    writeStatus p (tr ++ [⟨k, .flashDone p status, k'⟩]) = writeStatus p tr ++ [status] ∧
      readStatus p (tr ++ [⟨k, .flashDone p status, k'⟩]) = readStatus p tr := by
  constructor
  · exact Trace.filterMap_snoc tr (returned_flashDone status k' h)
  · exact (Trace.filterMap_snoc tr (returned_flashDone status k' h)).trans (List.append_nil _)

theorem status_loaded {d : Int} (tr : List Entry) (k' : Sys) (status : Word)
    (h : k.phase p = some (.paging page frame (.reading d))) :
    writeStatus p (tr ++ [⟨k, .flashDone p status, k'⟩]) = writeStatus p tr ∧
      readStatus p (tr ++ [⟨k, .flashDone p status, k'⟩]) = readStatus p tr ++ [status] := by
  constructor
  · exact (Trace.filterMap_snoc tr (returned_flashDone status k' h)).trans (List.append_nil _)
  · exact Trace.filterMap_snoc tr (returned_flashDone status k' h)

/-- Only the first step depends on the frame. -/
theorem Stage.Advance.of_chosen {occ' : Bool} (h : s.Advance p occ e s')
    (hocc : s = .chosen → occ = occ') : s.Advance p occ' e s' := by
  cases h with
  | evict h => exact .evict ((hocc rfl).symm.trans h)
  | skip h => exact .skip ((hocc rfl).symm.trans h)
  | writeOut d => exact .writeOut d
  | wrote d status => exact .wrote d status
  | readIn d => exact .readIn d
  | loaded d status => exact .loaded d status

theorem Stage.Advance.ne_chosen (h : s.Advance p occ e s') : s' ≠ .chosen := by
  cases h with
  | evict _ | skip _ | writeOut _ | wrote _ _ | readIn _ | loaded _ _ => exact Stage.noConfusion

/-- Each stage has returned what it reports. -/
theorem Stage.Advance.reports (h : s.Advance p occ e s') (k' : Sys)
    (hp : k.phase p = some (.paging page frame s))
    (hs : s.Reports occ (writeStatus p tr) (readStatus p tr)) :
    s'.Reports occ (writeStatus p (tr ++ [⟨k, e, k'⟩])) (readStatus p (tr ++ [⟨k, e, k'⟩])) := by
  have hnext := status_snoc (k := k) (e := .next p) (p := p) tr k' fun _ h => by cases h
  cases h with
  | evict hocc =>
      rw [hnext.1, hnext.2]
      exact ⟨hocc, hs⟩
  | skip hocc =>
      rw [hnext.1, hnext.2, hocc, hs.1]
      exact ⟨rfl, hs.2⟩
  | writeOut d | readIn d =>
      rw [hnext.1, hnext.2]
      exact hs
  | wrote d status =>
      obtain ⟨hocc, hw, hr⟩ := hs
      obtain ⟨hw', hr'⟩ := status_wrote tr k' status hp
      rw [hw', hr', hw, hocc]
      exact ⟨rfl, hr⟩
  | loaded d status =>
      obtain ⟨hw, hr⟩ := hs
      obtain ⟨hw', hr'⟩ := status_loaded tr k' status hp
      rw [hw', hr', hr]
      exact ⟨hw, rfl⟩

theorem Served.step (h : Served p page frame occ tr k) (hs : Phase3.step k e = some k')
    (hp : k.phase p = some (.paging page frame s)) :
    Served p page frame occ (tr ++ [⟨k, e, k'⟩]) k' := by
  have hl := h.locks
  have hl' := ((step_outcome hs).lockMove hl).locks hl
  cases step_passMove hs hl hp with
  | foreign he hproc hswap _ =>
      have hphase : ∀ {φ}, k'.phase p = some φ → k.phase p = some φ := by
        intro φ hφ
        obtain ⟨u, hu, hφ⟩ := Sys.phase_eq.mp hφ
        exact Sys.phase_eq.mpr ⟨u, hproc u hu, hφ⟩
      refine ⟨hl', fun hc => ?_, fun t ht => ?_⟩
      · rw [hswap]
        exact h.occupied (hphase hc)
      · obtain ⟨hw, hr⟩ := status_snoc tr k' he.2
        rw [hw, hr]
        exact h.reports t (hphase ht)
  | moves hadv hphase _ _ =>
      have hadv := hadv.of_chosen fun hc => h.occupied (hc ▸ hp)
      refine ⟨hl', fun hc => ?_, fun t ht => ?_⟩
      · cases hphase.symm.trans hc
        exact absurd rfl hadv.ne_chosen
      · cases hphase.symm.trans ht
        exact hadv.reports k' hp (h.reports s hp)
  | records hphase _ =>
      refine ⟨hl', fun hc => ?_, fun t ht => ?_⟩
      · cases hphase.symm.trans hc
      · obtain ⟨hw, hr⟩ := status_snoc (k := k) (e := .next p) (p := p) tr k' fun _ h => by cases h
        cases hphase.symm.trans ht
        rw [hw, hr]
        exact h.reports .loaded hp
  | maps hphase _ _ =>
      refine ⟨hl', fun hc => ?_, fun t ht => ?_⟩
      · cases hphase.symm.trans hc
      · cases hphase.symm.trans ht

/-! ## Faults -/

theorem Served.start (hl : k.Locks) (hp : k.phase p = some (.paging page frame .chosen)) :
    Served p page frame (frameIsOccupied (k.vm.swapTable frame)) [] k where
  locks := hl
  occupied _ := rfl
  reports t ht := by
    cases hp.symm.trans ht
    exact ⟨rfl, rfl⟩

namespace Pass

variable {a b : List Entry}

/-- At each of its steps the fault has come to a stage, from which it moves on. -/
theorem entry {k₁ k₂ : Sys} (h : Pass p page frame k tr k') (hl : k.Locks)
    (htr : tr = a ++ ⟨k₁, e, k₂⟩ :: b) :
    ∃ s, Served p page frame (frameIsOccupied (k.vm.swapTable frame)) a k₁ ∧
      k₁.phase p = some (.paging page frame s) ∧ PassMove p page frame k₁ s e k₂ := by
  subst htr
  obtain ⟨hrun, hs, -⟩ := h.run.split
  obtain ⟨s, hp⟩ := Phase.serving_eq (h.serves ⟨k₁, e, k₂⟩ (by simp))
  have hserved := hrun.invariant
    (P := fun tr k' => Served p page frame (frameIsOccupied (k.vm.swapTable frame)) tr k')
    (G := fun x => (x.before.phase p).bind Phase.serving = some (page, frame))
    (fun y hy => h.serves y (List.mem_append_left _ hy)) (.start hl h.start)
    fun hP hs hG => by
      obtain ⟨s, hp⟩ := Phase.serving_eq hG
      exact hP.step hs hp
  exact ⟨s, hserved, hp, step_passMove hs hserved.locks hp⟩

/-- The page is mapped in the last step, whatever has been returned. -/
theorem mapped (h : Pass p page frame k tr k') (hl : k.Locks) (hp : k'.phase p = some .mapped) :
    pteEntryIsValid (k'.vm.pte page) = true := by
  rcases List.eq_nil_or_concat tr with rfl | ⟨a, ⟨k₁, e, k₂⟩, rfl⟩
  · obtain rfl := h.run.eq_of_nil
    cases h.start.symm.trans hp
  · rw [List.concat_eq_append] at h
    obtain ⟨-, -, hend⟩ := h.run.split
    obtain rfl : k' = k₂ := hend.eq_of_nil
    obtain ⟨s, -, hbefore, hmove⟩ := h.entry hl rfl
    cases hmove with
    | maps _ _ hvalid => exact hvalid
    | foreign _ hproc _ _ =>
        obtain ⟨u, hu, hφ⟩ := Sys.phase_eq.mp hp
        cases hbefore.symm.trans (Sys.phase_eq.mpr ⟨u, hproc u hu, hφ⟩)
    | moves _ hphase _ _ | records hphase _ => cases hphase.symm.trans hp

/-- The `V` and the `LDST` at the end. -/
theorem resumed (hp : k'.phase p = some .mapped) :
    ∃ k'', step k' (.next p) = some k'' ∧ k''.phase p = some .user ∧ k''.vm = k'.vm := by
  obtain ⟨u, hu, hφ⟩ := Sys.phase_eq.mp hp
  refine ⟨k'.verhogenSwap p u, ?_, k'.wakeSwap.phase_setPhase p u .user, rfl⟩
  simp only [step, hu, Option.bind_some, Sys.next, hφ]

theorem ready_of_checked (h : Pass p page frame k tr k') (hl : k.Locks)
    (hp : k'.phase p = some .mapped) (hc : FlashChecked p page frame k tr k') :
    FlashReady p tr := by
  obtain ⟨k'', hs, huser, hvm⟩ := resumed hp
  refine hc.resumes hs huser ?_
  rw [hvm]
  exact h.mapped hl hp

theorem checked_of_ready (h : Pass p page frame k tr k') (hl : k.Locks) (hr : FlashReady p tr) :
    FlashChecked p page frame k tr k' := by
  have hpre : ∀ {a x b}, tr = a ++ x :: b → FlashReady p a := by
    rintro a x b rfl y hy
    exact hr y (List.mem_append_left _ hy)
  constructor
  case maps =>
    rintro a ⟨k₁, e, k₂⟩ b htr hbefore hafter
    obtain ⟨s, hserved, hp, hmove⟩ := h.entry hl htr
    cases hmove with
    | foreign _ _ _ hvalid | moves _ _ _ hvalid | records _ hvalid =>
        cases hbefore.symm.trans (hvalid hafter)
    | maps _ _ _ => exact (hpre htr).eq (hserved.reports .recorded hp).2
  case records =>
    rintro a ⟨k₁, e, k₂⟩ b i htr hbefore hafter
    obtain ⟨s, hserved, hp, hmove⟩ := h.entry hl htr
    cases hmove with
    | foreign _ _ hswap _ | moves _ _ hswap _ | maps _ hswap _ =>
        have hsame := congrArg Swap.swPte (congrFun hswap i)
        exact absurd (hsame.symm.trans hafter) hbefore
    | records _ _ => exact (hpre htr).eq (hserved.reports .loaded hp).2
  case givesUp =>
    rintro hocc a ⟨k₁, e, k₂⟩ b htr hg
    obtain ⟨s, hserved, hp, hmove⟩ := h.entry hl htr
    rw [hocc] at hserved
    cases hmove with
    | foreign _ hproc hswap _ =>
        rcases hg with ⟨d, hd⟩ | hg
        · obtain ⟨u, hu, hφ⟩ := Sys.phase_eq.mp hd
          have hd := Sys.phase_eq.mpr ⟨u, hproc u hu, hφ⟩
          exact (hpre htr).eq (hserved.reports (.reading d) hd).1
        · exact absurd (congrFun hswap frame) hg
    | moves hadv hphase hswap _ =>
        rcases hg with ⟨d, hd⟩ | hg
        · -- only the start of the read leads there
          cases hphase.symm.trans hd
          cases hadv with
          | readIn d => exact (hpre htr).eq (hserved.reports .vacated hp).1
        · exact absurd (congrFun hswap frame) hg
    | records _ _ => exact (hpre htr).eq (hserved.reports .loaded hp).1
    | maps hphase hswap _ =>
        rcases hg with ⟨d, hd⟩ | hg
        · cases hphase.symm.trans hd
        · exact absurd (congrFun hswap frame) hg
  case resumes => exact fun _ _ _ => hr

end Pass

/-- In every fault of every run, whatever the others do: if all devices answer
`READY`, nothing is corrupted up to any point of it; and if one of them does
not, the fault is not safe once the page is mapped. -/
theorem flash_checked {m : Machine} {tr₀ : List Entry} (h : Run m tr₀ k)
    (hp : Pass p page frame k tr k') :
    (FlashReady p tr → FlashChecked p page frame k tr k') ∧
      (k'.phase p = some .mapped →
        (FlashChecked p page frame k tr k' ↔ FlashReady p tr)) := by
  have hl := h.locks
  refine ⟨hp.checked_of_ready hl, fun hmapped => ?_⟩
  exact ⟨hp.ready_of_checked hl hmapped, hp.checked_of_ready hl⟩

/-- The events of a fault decide whether it has been ready. -/
theorem FlashReady.of_events {es : List Event} (hev : tr.map Trace.Entry.event = es)
    (h : ∀ status, .flashDone p status ∈ es → status = ready) : FlashReady p tr := by
  intro x hx status he
  refine h status ?_
  rw [← hev]
  exact List.mem_map.mpr ⟨x, hx, he⟩

end

/-- From the choice of a free frame on, if the device answers so. -/
def loads0 (status : Word) : List Event :=
  [.next 1, .next 1, .flashDone 1 status, .next 1, .next 1]

/-- From the choice of an occupied one on. -/
def replaces16 : List Event :=
  writesBack ++ [.next 1, .flashDone 1 ready, .next 1, .next 1]

/-- The run of a fault, with what holds at its end. -/
theorem exists_pass (es es' : List Event) (page : PtePtr) (P : Sys → List Entry → Sys → Bool)
    (h : (Trace.exec step Machine.zero.start es).any (fun x =>
      x.2.phase 1 = some (.paging page 0 .chosen) ∧
        (Trace.exec step x.2 es').any (fun y =>
          (∀ z ∈ y.1, (z.before.phase 1).bind Phase.serving = some (page, 0)) ∧
            P x.2 y.1 y.2)) = true) :
    ∃ tr₀ k tr k', Run .zero tr₀ k ∧ Pass 1 page 0 k tr k' ∧
      tr.map Trace.Entry.event = es' ∧ P k tr k' = true := by
  obtain ⟨tr₀, k, hrun, -, h⟩ := Trace.run_of_any h
  obtain ⟨hstart, h⟩ := of_decide_eq_true h
  obtain ⟨tr, k', hpass, hev, h⟩ := Trace.run_of_any h
  obtain ⟨hserves, hP⟩ := of_decide_eq_true h
  exact ⟨tr₀, k, tr, k', hrun, ⟨hpass, hstart, hserves⟩, hev, hP⟩

/-- The seventeenth page takes the frame of the first, which is written back;
both answers are `READY`. -/
theorem flash_checked_ready : ∃ tr₀ k tr k', Run .zero tr₀ k ∧ Pass 1 (7, 16) 0 k tr k' ∧
    (k.vm.swapTable 0).swPte = some (7, 0) ∧ tr.map Trace.Entry.event = replaces16 ∧
      k'.phase 1 = some .mapped ∧ FlashChecked 1 (7, 16) 0 k tr k' := by
  obtain ⟨tr₀, k, tr, k', hrun, hpass, hev, hP⟩ :=
    exists_pass (.root 1 :: fillsPool ++ faultOn 16) replaces16 (7, 16)
      (fun k _ k' => k'.phase 1 = some .mapped ∧ (k.vm.swapTable 0).swPte = some (7, 0))
      (by decide +kernel)
  obtain ⟨hmapped, hvictim⟩ := of_decide_eq_true hP
  have hready : FlashReady 1 tr := .of_events hev (by simp [replaces16, writesBack])
  have hchecked := ((flash_checked hrun hpass).2 hmapped).mpr hready
  exact ⟨tr₀, k, tr, k', hrun, hpass, hvictim, hev, hmapped, hchecked⟩

/-- The device reports a read error, and the page is mapped and recorded all the same. -/
theorem flash_read_error : ∃ tr₀ k tr k', Run .zero tr₀ k ∧ Pass 1 (7, 0) 0 k tr k' ∧
    k'.phase 1 = some .mapped ∧ readStatus 1 tr = [4] ∧
      pteEntryIsValid (k'.vm.pte (7, 0)) = true ∧ (k'.vm.swapTable 0).swPte = some (7, 0) ∧
      ¬ FlashChecked 1 (7, 0) 0 k tr k' := by
  obtain ⟨tr₀, k, tr, k', hrun, hpass, hev, hP⟩ :=
    exists_pass (.root 1 :: faultOn 0) (loads0 4) (7, 0)
      (fun _ tr k' => k'.phase 1 = some .mapped ∧ readStatus 1 tr = [4] ∧
        pteEntryIsValid (k'.vm.pte (7, 0)) = true ∧ (k'.vm.swapTable 0).swPte = some (7, 0))
      (by decide +kernel)
  obtain ⟨hmapped, hread, hvalid, hswap⟩ := of_decide_eq_true hP
  refine ⟨tr₀, k, tr, k', hrun, hpass, hmapped, hread, hvalid, hswap, fun hc => ?_⟩
  have hmem : Event.flashDone 1 4 ∈ tr.map Trace.Entry.event := by
    rw [hev]
    simp [loads0]
  obtain ⟨x, hx, he⟩ := List.mem_map.mp hmem
  have hready := hpass.ready_of_checked hrun.locks hmapped hc
  exact absurd (hready x hx 4 he) (by decide)

end Pandos.Phase3
