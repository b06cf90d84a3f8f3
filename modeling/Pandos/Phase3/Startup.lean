/-
# `Pandos.Phase3.Startup` — what the U-procs are given

`initUProcs` gives each U-proc a support structure from the pool, its ASID, a
page table and the contexts of its two handlers, and the state it starts in.

Nothing checks that `alloc_supp` has returned a structure.  While the U-procs
are created those that are there already may end, which only puts structures
back; so in a run of `test_phase_3` there is always one, nobody uses it, and
nobody has the ASID it gets (`initUProcs_isolates`).

The ASID decides where the handlers of a U-proc have their stacks, one page
each; so they are apart from those of the other U-procs, from the stack of the
first process at the top of the memory and from the frames of the pager
(`handlerStack_apart`, `handlerStack_firstStack`, `handlerStack_frame`).
-/
import Mathlib.Order.Interval.Set.Defs
import Pandos.Phase3.Coherence
import Pandos.Phase3.SuppStack

namespace Pandos.Phase3

/-! ## `init_uproc_state`, `init_uproc_support` -/

abbrev ieCOn : Word := 0x00000001
abbrev imOn : Word := 0x0000FF00
abbrev tebitOn : Word := 0x08000000

/-- The new `uproc_state`. -/
def initUprocState (uprocState : State) (asid : Word) : State :=
  let gpr := Function.update uprocState.gpr 24 0x800000B0
  { uprocState with
    pcEpc := 0x800000B0
    gpr := Function.update gpr 26 0xC0000000
    status := ieCOn ||| imOn ||| tebitOn
    entryHi := asid <<< asidShift }

/-- Where the code of the two handlers lies, and `RAMTOP`. -/
structure Image where
  handlePageFault : Word
  handleSupportLevelExceptions : Word
  ramTop : Word

def initUprocSupport (im : Image) (supp : Support) : Support :=
  let status := tebitOn ||| ieCOn
  let pgFault : Context :=
    ⟨im.ramTop - supp.supAsid * 2 * pageSize, status, im.handlePageFault⟩
  let general : Context :=
    ⟨im.ramTop - (supp.supAsid * 2 + 1) * pageSize, status, im.handleSupportLevelExceptions⟩
  let contexts := Function.update supp.supExceptContext pgFaultExcept pgFault
  initUprocPagetable { supp with
    supExceptContext := Function.update contexts generalExcept general }

/-- The page below an initial stack pointer. -/
def stackPage (stackPtr : Word) : Set Nat :=
  Set.Ico (stackPtr.toNat - 4096) stackPtr.toNat

/-- The stack of the handler for exceptions of type `t`. -/
def handlerStack (im : Image) (supp : Support) (t : Fin 2) : Set Nat :=
  stackPage ((initUprocSupport im supp).supExceptContext t).stackPtr

/-- The frame `i` of the swap pool. -/
def frame (i : Fin poolSize) : Set Nat := Set.Ico (frameAddr i).toNat ((frameAddr i).toNat + 4096)

/-- No byte is in both. -/
def Apart (A B : Set Nat) : Prop := ∀ a ∈ A, a ∉ B

section
variable {im : Image} {s s' : Support} {t t' : Fin 2}

theorem except_cases : ∀ t : Fin 2, t = pgFaultExcept ∨ t = generalExcept := by decide

theorem stackPtr_toNat (hs : UprocAsid s.supAsid) (hram : 18 * 4096 ≤ im.ramTop.toNat) :
    ((initUprocSupport im s).supExceptContext t).stackPtr.toNat =
      im.ramTop.toNat - (s.supAsid.toNat * 2 + t) * 4096 := by
  have hle : s.supAsid.toNat ≤ 8 := hs.2
  have hlt := im.ramTop.isLt
  have hone : (1 : Word).toNat = 1 := rfl
  have htwo : (2 : Word).toNat = 2 := rfl
  have hpage : (4096 : Word).toNat = 4096 := rfl
  rcases except_cases t with rfl | rfl
  · show (im.ramTop - s.supAsid * 2 * 4096).toNat = im.ramTop.toNat - (s.supAsid.toNat * 2 + 0) * 4096
    simp only [BitVec.toNat_sub, BitVec.toNat_mul, htwo, hpage]
    omega
  · show (im.ramTop - (s.supAsid * 2 + 1) * 4096).toNat =
      im.ramTop.toNat - (s.supAsid.toNat * 2 + 1) * 4096
    simp only [BitVec.toNat_sub, BitVec.toNat_add, BitVec.toNat_mul, hone, htwo, hpage]
    omega

theorem apart_Ico {a b c d : Nat} (h : b ≤ c ∨ d ≤ a) : Apart (Set.Ico a b) (Set.Ico c d) := by
  rintro x ⟨hx, hx'⟩ ⟨hy, hy'⟩
  omega

/-- Two handlers have one stack only if they are the same one of one U-proc. -/
theorem handlerStack_apart (hs : UprocAsid s.supAsid) (hs' : UprocAsid s'.supAsid)
    (hram : 18 * 4096 ≤ im.ramTop.toNat) (hne : s.supAsid ≠ s'.supAsid ∨ t ≠ t') :
    Apart (handlerStack im s t) (handlerStack im s' t') := by
  have hle : s.supAsid.toNat ≤ 8 := hs.2
  have hle' : s'.supAsid.toNat ≤ 8 := hs'.2
  have hno : s.supAsid.toNat * 2 + t ≠ s'.supAsid.toNat * 2 + t' := by
    intro heq
    rcases hne with hne | hne
    · exact hne (BitVec.eq_of_toNat_eq (by omega))
    · exact hne (Fin.ext (by omega))
  unfold handlerStack stackPage
  rw [stackPtr_toNat hs hram, stackPtr_toNat hs' hram]
  exact apart_Ico (by omega)

/-- The first process has the page below `RAMTOP`. -/
theorem handlerStack_firstStack (hs : UprocAsid s.supAsid) (hram : 18 * 4096 ≤ im.ramTop.toNat) :
    Apart (handlerStack im s t) (stackPage im.ramTop) := by
  have hpos : 1 ≤ s.supAsid.toNat := hs.1
  unfold handlerStack stackPage
  rw [stackPtr_toNat hs hram]
  exact apart_Ico (by omega)

theorem frameAddr_toNat : ∀ i : Fin poolSize,
    (frameAddr i).toNat = framePoolStart.toNat + i * 4096 := by
  decide +kernel

/-- The frames lie below all stacks. -/
theorem handlerStack_frame (hs : UprocAsid s.supAsid)
    (hram : framePoolStart.toNat + 34 * 4096 ≤ im.ramTop.toNat) (i : Fin poolSize) :
    Apart (handlerStack im s t) (frame i) := by
  have hle : s.supAsid.toNat ≤ 8 := hs.2
  have hi : (i : Nat) < 16 := i.isLt
  unfold handlerStack stackPage frame
  rw [frameAddr_toNat]
  generalize framePoolStart.toNat = base at hram ⊢
  rw [stackPtr_toNat hs (by omega)]
  exact apart_Ico (by omega)

end

/-! ## Who is there -/

/-- ASIDs are given once, and what has not been given away is in the pool. -/
structure Roster (k : Sys) : Prop where
  asid : ∀ {p u}, k.proc p = some u → UprocAsid u.asid ∧ u.asid.toNat ≤ k.root.created
  inj : ∀ {p r u v}, k.proc p = some u → k.proc r = some v → u.asid = v.asid → p = r
  stock : uprocMax ≤ k.pool.contents.length + k.root.created

/-- How a step changes it. -/
inductive RosterMove (k : Sys) : Sys → Prop where
  | keep {k'} (hpool : k.pool.contents.length ≤ k'.pool.contents.length)
      (hroot : k.root.created ≤ k'.root.created)
      (hproc : ∀ r v, k'.proc r = some v → ∃ u, k.proc r = some u ∧ u.asid = v.asid) :
      RosterMove k k'
  | create {p i supp pool} (hroot : k.root = .creating i) (hi : i < uprocMax)
      (halloc : k.pool.allocSupp = (some supp, pool)) :
      RosterMove k { k.create p (BitVec.ofNat 32 (i + 1)) supp pool with root := .creating (i + 1) }

section
variable {k k' : Sys} {p : PcbPtr} {u : Uproc} {e : Event} {free : List SuppPtr}

theorem asid_toNat {i : Nat} (hi : i < uprocMax) : (BitVec.ofNat 32 (i + 1)).toNat = i + 1 := by
  have hi : i < 8 := hi
  simp only [BitVec.toNat_ofNat]
  omega

namespace RosterMove

theorem stay (hpool : k'.pool = k.pool) (hroot : k.root.created ≤ k'.root.created)
    (hproc : k'.proc = k.proc) : RosterMove k k' :=
  .keep (hpool ▸ le_refl _) hroot fun _ v hv => ⟨v, hproc ▸ hv, rfl⟩

theorem move {φ : Phase} (hp : k.proc p = some u)
    (hpool : k.pool.contents.length ≤ k'.pool.contents.length)
    (hroot : k'.root.created = k.root.created)
    (hproc : k'.proc = (k.setPhase p u φ).proc) : RosterMove k k' := by
  refine .keep hpool hroot.ge fun r v hv => ?_
  rw [hproc] at hv
  rcases Sys.of_setPhase hv with ⟨rfl, rfl⟩ | ⟨-, hv⟩
  · exact ⟨u, hp, rfl⟩
  · exact ⟨v, hv, rfl⟩

theorem gone (k : Sys) (p : PcbPtr) : RosterMove k (k.termProcess p) :=
  .keep (le_refl _) (le_refl _) fun _ v hv => ⟨v, (Sys.of_termProcess hv).2, rfl⟩

theorem roster (h : RosterMove k k') (hk : Roster k) (husers : k.Users free) : Roster k' := by
  cases h with
  | keep hpool hroot hproc =>
      constructor
      case asid =>
        intro r v hv
        obtain ⟨u, hu, ha⟩ := hproc r v hv
        rw [← ha]
        exact (hk.asid hu).imp_right fun hle => hle.trans hroot
      case inj =>
        intro r t v w hv hw heq
        obtain ⟨u, hu, ha⟩ := hproc r v hv
        obtain ⟨u', hu', ha'⟩ := hproc t w hw
        exact hk.inj hu hu' (ha.trans (heq.trans ha'.symm))
      case stock =>
        have hstock := hk.stock
        omega
  | @create p i supp pool hroot hi halloc =>
      have hnat := asid_toNat hi
      -- all that are there have been created before
      have hold : ∀ {r v}, k.proc r = some v → v.asid.toNat ≤ i := by
        intro r v hv
        have hle := (hk.asid hv).2
        rwa [hroot] at hle
      have hproc : ∀ {r v}, (k.create p (BitVec.ofNat 32 (i + 1)) supp pool).proc r = some v →
          r = p ∧ v.asid = BitVec.ofNat 32 (i + 1) ∨ r ≠ p ∧ k.proc r = some v := by
        intro r v hv
        rcases eq_or_ne r p with rfl | hr
        · rw [Sys.create_self, Option.some.injEq] at hv
          exact .inl ⟨rfl, hv ▸ rfl⟩
        · rw [Sys.create_of_ne _ _ _ _ _ hr] at hv
          exact .inr ⟨hr, hv⟩
      constructor
      case asid =>
        intro r v hv
        rcases hproc hv with ⟨-, ha⟩ | ⟨-, hv⟩
        · rw [ha, hnat]
          exact ⟨uprocAsid_ofNat hi, le_refl _⟩
        · exact ⟨(hk.asid hv).1, Nat.le_succ_of_le (hold hv)⟩
      case inj =>
        intro r t v w hv hw heq
        rcases hproc hv with ⟨rfl, ha⟩ | ⟨-, hv'⟩
        · rcases hproc hw with ⟨rfl, -⟩ | ⟨-, hw'⟩
          · rfl
          · have hle := hold hw'
            rw [← heq, ha, hnat] at hle
            exact absurd hle (Nat.not_succ_le_self i)
        · rcases hproc hw with ⟨rfl, ha⟩ | ⟨-, hw'⟩
          · have hle := hold hv'
            rw [heq, ha, hnat] at hle
            exact absurd hle (Nat.not_succ_le_self i)
          · exact hk.inj hv' hw' heq
      case stock =>
        have hstock := hk.stock
        rw [husers.pool.contents_eq, hroot] at hstock
        have hpool := husers.pool.allocSupp.2
        rw [halloc] at hpool
        show uprocMax ≤ pool.contents.length + (i + 1)
        rw [hpool.contents_eq, List.length_tail]
        have hstock : uprocMax ≤ free.length + i := hstock
        omega

end RosterMove

theorem Outcome.rosterMove (h : Outcome k e k') (hl : k.Locks) (husers : k.Users free)
    (hc : k.root.created ≤ uprocMax) (hs : Started ⟨k, e, k'⟩) : RosterMove k k' := by
  cases h with
  | created hroot hi halloc _ => exact .create hroot hi halloc
  | spawned _ _ _ => exact absurd rfl (hs _ _)
  | allCreated hroot _ => exact .stay rfl hc rfl
  | rootDown hroot _ =>
      refine .stay rfl ?_ rfl
      rw [hroot]
      dsimp only
      split
      · exact le_refl _
      · exact le_refl _
  | rootReturns hroot _ => exact .stay rfl hc rfl
  | rootEnds hroot => exact .keep (le_refl _) hc fun _ _ hv => nomatch hv
  | store _ _ _ | refill _ _ _ _ _ => exact .stay rfl (le_refl _) rfl
  | refillEnds _ _ _ _ _ | missing _ _ _ | gone _ _ => exact .gone k _
  | fault hp _ | except hp _ | acquire hp _ | find hp _ _ | choose hp _ | evict hp _ _ _
  | skip hp _ _ | writeOut hp _ _ | readIn hp _ | record hp _ | map hp _ | wrote hp _
  | loaded hp _ => exact .move hp (le_refl _) rfl rfl
  | release hp hu =>
      refine .keep (le_refl _) (le_refl _) fun r v hv => ?_
      rcases verhogenSwap_proc hl hv with ⟨rfl, rfl⟩ | ⟨-, h | ⟨w, hw, -, rfl⟩⟩
      · exact ⟨_, hp, rfl⟩
      · exact ⟨v, h, rfl⟩
      · exact ⟨w, hw, rfl⟩
  | dealloc hp hu =>
      have hbusy := husers.busy hp (by rw [hu]; rfl)
      have hpool := (husers.pool.deallocSupp hbusy).contents_eq
      refine .move hp ?_ rfl rfl
      show k.pool.contents.length ≤ (k.pool.deallocSupp _).contents.length
      rw [hpool, husers.pool.contents_eq]
      exact Nat.le_succ _
  | notify hp _ => exact .move hp (le_refl _) (notifyTerminated_created k) rfl

theorem Machine.start_roster (m : Machine) : Roster m.start where
  asid := nofun
  inj := nofun
  stock := by
    show uprocMax ≤ Pool.empty.initSuppStack.contents.length + 0
    rw [Pool.initSuppStack_isStack.contents_eq]
    decide

theorem Run.roster {m : Machine} {tr : List Entry} (h : Run m tr k) (hx : ∀ x ∈ tr, Started x) :
    Roster k := by
  have hinv : k.Locks ∧ (∃ free, k.Users free) ∧ k.root.created ≤ uprocMax ∧ Roster k := by
    refine h.invariant (P := fun _ k => k.Locks ∧ (∃ free, k.Users free) ∧
      k.root.created ≤ uprocMax ∧ Roster k) hx
      ⟨m.start_locks, ⟨_, m.start_users⟩, Nat.zero_le _, m.start_roster⟩ ?_
    intro tr k e k' ⟨hl, ⟨free, husers⟩, hc, hk⟩ hs hx
    have hout := step_outcome hs
    exact ⟨(hout.lockMove hl).locks hl, (hout.useMove hl).users husers, hout.created_le hc,
      (hout.rosterMove hl husers hc hx).roster hk husers⟩
  exact hinv.2.2.2

end

/-- The handlers of the U-proc `p` have stacks of their own. -/
structure Sys.StacksApart (k : Sys) (im : Image) (p : PcbPtr) (u : Uproc) : Prop where
  first : ∀ t, Apart (handlerStack im (k.vm.supp u.supp) t) (stackPage im.ramTop)
  frames : ∀ t i, Apart (handlerStack im (k.vm.supp u.supp) t) (frame i)
  others : ∀ t t' r v, k.proc r = some v → v.phase.uses = true → p ≠ r ∨ t ≠ t' →
    Apart (handlerStack im (k.vm.supp u.supp) t) (handlerStack im (k.vm.supp v.supp) t')

/-- A U-proc that starts with the structure `s` starts on pages of its own. -/
structure StartsWith (s : Support) (asid : Word) : Prop where
  entryHi : ∀ st, entryHiGetAsid (initUprocState st asid).entryHi = asid
  code : ∀ st, getMissingPage s (initUprocState st asid).pcEpc = some 0
  stack : ∀ st, getMissingPage s ((initUprocState st asid).gpr 26 - 4) = some 31

theorem Table.startsWith {s : Support} (h : Table s) (ha : UprocAsid s.supAsid) :
    StartsWith s s.supAsid := by
  have hall : ∀ n : Fin uprocMax, let a : Word := BitVec.ofNat 32 (n + 1)
      entryHiGetAsid (a <<< asidShift) = a ∧
        ((List.finRange maxPages).find? fun i =>
          entryHiGetVpn (pageHi a i) = entryHiGetVpn 0x800000B0) = some 0 ∧
        ((List.finRange maxPages).find? fun i =>
          entryHiGetVpn (pageHi a i) = entryHiGetVpn (0xC0000000 - 4)) = some 31 := by
    decide +kernel
  have hpage : ∀ i, (s.supPrivatePgTbl i).entryHi = pageHi s.supAsid i := h.of_asid ha
  obtain ⟨n, hn⟩ := ha.exists_fin
  obtain ⟨hasid, hcode, hstack⟩ := hall n
  rw [← hn] at hasid hcode hstack
  refine ⟨fun _ => hasid, fun _ => ?_, fun _ => ?_⟩
  · simp only [getMissingPage, hpage]
    exact hcode
  · simp only [getMissingPage, hpage]
    exact hstack

theorem Roster.alloc {k : Sys} {free : List SuppPtr} (h : Roster k) (husers : k.Users free) {i : Nat}
    (hroot : k.root = .creating i) (hi : i < uprocMax) : ∃ supp pool,
      k.pool.allocSupp = (some supp, pool) ∧ ∀ p u, k.proc p = some u →
        u.asid ≠ BitVec.ofNat 32 (i + 1) ∧ (u.phase.uses = true → u.supp ≠ supp) := by
  have hstock := h.stock
  rw [husers.pool.contents_eq, hroot] at hstock
  have hstock : uprocMax ≤ free.length + i := hstock
  have halloc := husers.pool.allocSupp.1
  cases hfree : free with
  | nil =>
      rw [hfree, List.length_nil] at hstock
      omega
  | cons supp l =>
      rw [hfree, List.head?_cons] at halloc
      refine ⟨supp, k.pool.allocSupp.2, Prod.ext halloc rfl, fun p u hp => ⟨fun ha => ?_, ?_⟩⟩
      · have hle := (h.asid hp).2
        rw [ha, asid_toNat hi, hroot] at hle
        exact absurd hle (Nat.not_succ_le_self i)
      · rintro huse rfl
        exact husers.busy hp huse (hfree ▸ List.mem_cons_self)

theorem Roster.stacksApart {k : Sys} {free : List SuppPtr} (h : Roster k) (husers : k.Users free)
    {p : PcbPtr} {u : Uproc} (hp : k.proc p = some u) (huse : u.phase.uses = true) {im : Image}
    (hram : framePoolStart.toNat + 34 * 4096 ≤ im.ramTop.toNat) : k.StacksApart im p u := by
  obtain ⟨heq, ha⟩ := husers.asid hp huse
  have hram' : 18 * 4096 ≤ im.ramTop.toNat := by omega
  rw [← heq] at ha
  constructor
  case first => exact fun t => handlerStack_firstStack ha hram'
  case frames => exact fun t i => handlerStack_frame ha hram i
  case others =>
    intro t t' r v hr hvuse hne
    obtain ⟨heq', ha'⟩ := husers.asid hr hvuse
    rw [← heq'] at ha'
    refine handlerStack_apart ha ha' hram' (hne.imp_left fun hpr hasid => hpr ?_)
    exact h.inj hp hr (heq.symm.trans (hasid.trans heq'))

/-- In every run of `test_phase_3`, while `initUProcs` creates U-procs it gets
a structure that nobody uses, for an ASID that nobody has; and a U-proc has a
structure with its ASID and the pages it starts on, and, if the memory reaches
far enough, stacks for its handlers apart from those of the other U-procs, from
that of the first process and from the frames. -/
theorem initUProcs_isolates {m : Machine} {tr : List Entry} {k : Sys} (h : Run m tr k)
    (hx : ∀ x ∈ tr, Started x) :
    (∀ i, k.root = .creating i → i < uprocMax → ∃ supp pool,
      k.pool.allocSupp = (some supp, pool) ∧ ∀ p u, k.proc p = some u →
        u.asid ≠ BitVec.ofNat 32 (i + 1) ∧ (u.phase.uses = true → u.supp ≠ supp)) ∧
    ∀ p u, k.proc p = some u → u.phase.uses = true →
      (k.vm.supp u.supp).supAsid = u.asid ∧ StartsWith (k.vm.supp u.supp) u.asid ∧
      ∀ im : Image, framePoolStart.toNat + 34 * 4096 ≤ im.ramTop.toNat → k.StacksApart im p u := by
  have hk := Run.roster h hx
  obtain ⟨-, free, husers⟩ := h.users
  refine ⟨fun i hroot hi => hk.alloc husers hroot hi, fun p u hp huse => ?_⟩
  obtain ⟨heq, ha⟩ := husers.asid hp huse
  have hstart := (husers.table u.supp).startsWith (heq ▸ ha)
  exact ⟨heq, heq ▸ hstart, fun im hram => hk.stacksApart husers hp huse hram⟩

/-- Two U-procs have been created, and the first has ended and given its
structure back. -/
def createdTwo : List Event := [.root 1, .root 2, .except 1 terminates, .next 1]

/-- The third gets it. -/
theorem initUProcs_isolates_createdTwo : ∃ tr k pool u, Run .zero tr k ∧
    k.root = .creating 2 ∧ k.pool.allocSupp = (some 7, pool) ∧ k.proc 2 = some u ∧
      u.supp ≠ 7 ∧ StartsWith (k.vm.supp u.supp) u.asid := by
  have hany : (Trace.exec step Machine.zero.start createdTwo).any (fun z =>
      z.2.root = .creating 2 ∧ z.2.pool.allocSupp.1 = some 7 ∧
        (z.2.proc 2).any fun u => u.phase.uses) = true := by
    decide +kernel
  obtain ⟨tr, k, hrun, hevents, h⟩ := Trace.run_of_any hany
  obtain ⟨hroot, hseven, h⟩ := of_decide_eq_true h
  obtain ⟨u, hp, huse⟩ := (Option.any_eq_true _ _).mp h
  have hstarted := started_of_events hevents (by simp [createdTwo])
  obtain ⟨hgets, hhas⟩ := initUProcs_isolates hrun hstarted
  obtain ⟨supp, pool, halloc, hfresh⟩ := hgets 2 hroot (by decide)
  obtain rfl : supp = 7 := by
    rw [halloc] at hseven
    exact Option.some.inj hseven
  exact ⟨tr, k, pool, u, hrun, hroot, halloc, hp, (hfresh 2 u hp).2 huse, (hhas 2 u hp huse).2.1⟩

end Pandos.Phase3
