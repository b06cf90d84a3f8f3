/-
# `Pandos.Phase3.Tables` — page tables and page table entries

The bit fields of the entries `init_uproc_pagetable` writes and the pager
changes, and what each function of the pager leaves alone.  The fields are
evaluated: there are eight ASIDs, thirty-two pages and sixteen frames.
-/
import Pandos.Phase3.SwapLock

namespace Pandos.Phase3

/-! ## Bit fields -/

theorem entryHiGetVpn_toNat (hi : Word) :
    (entryHiGetVpn hi).toNat = hi.toNat / 2 ^ 12 % 2 ^ 18 := by
  rw [entryHiGetVpn, BitVec.toNat_and, BitVec.toNat_ushiftRight, Nat.shiftRight_eq_div_pow]
  exact Nat.and_two_pow_sub_one_eq_mod _ 18

theorem entryHiGetAsid_toNat (hi : Word) :
    (entryHiGetAsid hi).toNat = hi.toNat / 2 ^ 6 % 2 ^ 6 := by
  rw [entryHiGetAsid, BitVec.toNat_and, BitVec.toNat_ushiftRight, Nat.shiftRight_eq_div_pow]
  exact Nat.and_two_pow_sub_one_eq_mod _ 6

theorem ushiftRight_toNat (x : Word) (n : Nat) : (x >>> n).toNat = x.toNat / 2 ^ n := by
  rw [BitVec.toNat_ushiftRight, Nat.shiftRight_eq_div_pow]

/-- The two highest bits, the VPN and the ASID make up the key. -/
theorem hiKey_ext {x y : Word} (htop : x >>> 30 = y >>> 30)
    (hvpn : entryHiGetVpn x = entryHiGetVpn y) (hasid : entryHiGetAsid x = entryHiGetAsid y) : hiKey x = hiKey y := by
  have htop := congrArg BitVec.toNat htop
  have hvpn := congrArg BitVec.toNat hvpn
  have hasid := congrArg BitVec.toNat hasid
  rw [ushiftRight_toNat, ushiftRight_toNat] at htop
  rw [entryHiGetVpn_toNat, entryHiGetVpn_toNat] at hvpn
  rw [entryHiGetAsid_toNat, entryHiGetAsid_toNat] at hasid
  apply BitVec.eq_of_toNat_eq
  rw [hiKey, hiKey, ushiftRight_toNat, ushiftRight_toNat]
  have hx := x.isLt
  have hy := y.isLt
  show x.toNat / 2 ^ 6 = y.toNat / 2 ^ 6
  omega

theorem UprocAsid.exists_fin {a : Word} (h : UprocAsid a) :
    ∃ n : Fin uprocMax, a = BitVec.ofNat 32 (n + 1) := by
  have h1 : 1 ≤ a.toNat := h.1
  have h8 : a.toNat ≤ 8 := h.2
  refine ⟨⟨a.toNat - 1, show a.toNat - 1 < 8 by omega⟩, ?_⟩
  have ha : a.toNat - 1 + 1 = a.toNat := by omega
  rw [ha, BitVec.ofNat_toNat, BitVec.setWidth_eq]

theorem uprocAsid_ofNat {i : Nat} (h : i < uprocMax) : UprocAsid (BitVec.ofNat 32 (i + 1)) := by
  have hall : ∀ i : Fin uprocMax, UprocAsid (BitVec.ofNat 32 (i + 1)) := by decide
  exact hall ⟨i, h⟩

theorem not_uprocAsid_zero : ¬ UprocAsid 0 := by decide

private theorem pageHi_fields : ∀ (n : Fin uprocMax) (i : Fin maxPages),
    entryHiGetAsid (pageHi (BitVec.ofNat 32 (n + 1)) i) = BitVec.ofNat 32 (n + 1) ∧
      getPageNum (pageHi (BitVec.ofNat 32 (n + 1)) i) = BitVec.ofNat 32 i := by
  decide +kernel

section
variable {a b : Word}

theorem entryHiGetAsid_pageHi (h : UprocAsid a) (i : Fin maxPages) :
    entryHiGetAsid (pageHi a i) = a := by
  obtain ⟨n, rfl⟩ := h.exists_fin
  exact (pageHi_fields n i).1

theorem getPageNum_pageHi (h : UprocAsid a) (i : Fin maxPages) :
    getPageNum (pageHi a i) = BitVec.ofNat 32 i := by
  obtain ⟨n, rfl⟩ := h.exists_fin
  exact (pageHi_fields n i).2

theorem asid_of_hiKey {hi hi' : Word} (h : hiKey hi = hiKey hi') :
    entryHiGetAsid hi = entryHiGetAsid hi' := congrArg (· &&& 0x3F) h

theorem pageNum_of_hiKey {hi hi' : Word} (h : hiKey hi = hiKey hi') :
    getPageNum hi = getPageNum hi' := by
  have hvpn : ∀ hi : Word, entryHiGetVpn hi = (hiKey hi >>> 6) &&& 0x3FFFF := fun hi => by
    rw [entryHiGetVpn, hiKey, ← BitVec.shiftRight_add]
  simp only [getPageNum, hvpn, h]

/-- The pages of all address spaces have different `EntryHi`s. -/
theorem hiKey_inj (ha : UprocAsid a) (hb : UprocAsid b) {i j : Fin maxPages}
    (h : hiKey (pageHi a i) = hiKey (pageHi b j)) : a = b ∧ i = j := by
  have hasid := asid_of_hiKey h
  have hpage := pageNum_of_hiKey h
  rw [entryHiGetAsid_pageHi ha, entryHiGetAsid_pageHi hb] at hasid
  rw [getPageNum_pageHi ha, getPageNum_pageHi hb] at hpage
  refine ⟨hasid, Fin.ext ?_⟩
  have hnat := congrArg BitVec.toNat hpage
  have hi : (i : Nat) < 32 := i.isLt
  have hj : (j : Nat) < 32 := j.isLt
  simp only [BitVec.toNat_ofNat] at hnat
  omega

end

theorem frameAddr_inj : ∀ {i j : Fin poolSize},
    frameAddr i ||| validOn ||| dirtyOn = frameAddr j ||| validOn ||| dirtyOn → i = j := by
  decide +kernel

theorem valid_present : ∀ i : Fin poolSize,
    (frameAddr i ||| validOn ||| dirtyOn) &&& validOn ≠ 0 := by
  decide

/-- The entry of a page that has been evicted. -/
theorem present_invalidated : ∀ i : Fin poolSize,
    (frameAddr i ||| validOn ||| dirtyOn) &&& ~~~validOn = frameAddr i ||| dirtyOn := by
  decide

theorem not_valid_invalidated (lo : Word) : lo &&& ~~~validOn &&& validOn = 0 := by
  rw [BitVec.and_assoc, BitVec.and_comm (~~~validOn), BitVec.and_not_self]
  exact BitVec.and_zero

theorem not_valid_zero : pteEntryIsValid ⟨0, 0⟩ = false := by decide

/-! ## What a function leaves alone -/

namespace Vm

variable (vm : Vm) (q r : PtePtr) (e : PteEntry)

@[simp] theorem pte_setPte_self : (vm.setPte q e).pte q = e := by
  simp [pte, setPte]

@[simp] theorem pte_setPte_of_ne (h : r ≠ q) : (vm.setPte q e).pte r = vm.pte r := by
  obtain ⟨s, i⟩ := q
  obtain ⟨t, j⟩ := r
  unfold pte setPte
  rcases eq_or_ne t s with rfl | ht
  · have hj : j ≠ i := fun hji => h (by rw [hji])
    simp [hj]
  · simp [ht]

theorem markInvalid_self : (vm.markInvalid q).pte q =
    ⟨(vm.pte q).entryHi, (vm.pte q).entryLo &&& ~~~validOn⟩ := vm.pte_setPte_self q _

theorem markInvalid_of_ne (h : r ≠ q) : (vm.markInvalid q).pte r = vm.pte r :=
  vm.pte_setPte_of_ne q r _ h

theorem markValid_self : (vm.markValidAndUpdateTLB q).pte q =
    ⟨(vm.pte q).entryHi, frameAddr vm.frameIndexToReplace ||| validOn ||| dirtyOn⟩ :=
  vm.pte_setPte_self q _

theorem markValid_of_ne (h : r ≠ q) : (vm.markValidAndUpdateTLB q).pte r = vm.pte r :=
  vm.pte_setPte_of_ne q r _ h

theorem markValid_valid : pteEntryIsValid ((vm.markValidAndUpdateTLB q).pte q) = true := by
  rw [markValid_self, pteEntryIsValid, decide_eq_true_eq]
  exact valid_present _

@[simp] theorem setPte_supAsid (s : SuppPtr) :
    ((vm.setPte q e).supp s).supAsid = (vm.supp s).supAsid := by
  unfold setPte
  rcases eq_or_ne s q.1 with rfl | h
  · simp
  · simp [h]

@[simp] theorem setPte_supExceptState (s : SuppPtr) :
    ((vm.setPte q e).supp s).supExceptState = (vm.supp s).supExceptState := by
  unfold setPte
  rcases eq_or_ne s q.1 with rfl | h
  · simp
  · simp [h]

/-! ## Page tables -/

/-- Nothing but the lower halves of page table entries and the saved states
changes in the support structures. -/
structure Keeps (vm vm' : Vm) : Prop where
  supAsid : ∀ s, (vm'.supp s).supAsid = (vm.supp s).supAsid
  entryHi : ∀ q, (vm'.pte q).entryHi = (vm.pte q).entryHi

variable {vm} {vm' : Vm} {q}

theorem Keeps.of_supp (h : vm'.supp = vm.supp) : vm.Keeps vm' where
  supAsid s := by rw [h]
  entryHi q := by rw [pte, pte, h]

theorem Keeps.setPte {lo : Word}
    (h : vm'.supp = (vm.setPte q { vm.pte q with entryLo := lo }).supp) : vm.Keeps vm' := by
  constructor
  case supAsid =>
    intro s
    rw [h, setPte_supAsid]
  case entryHi =>
    intro r
    have hpte : vm'.pte r = (vm.setPte q { vm.pte q with entryLo := lo }).pte r := by
      rw [pte, h]
      rfl
    rw [hpte]
    rcases eq_or_ne r q with rfl | hr
    · rw [pte_setPte_self]
    · rw [pte_setPte_of_ne _ _ _ _ hr]

theorem passup_pte (vm : Vm) (s : SuppPtr) (t : Fin 2) (saved : State) (r : PtePtr) :
    (vm.passup s t saved).pte r = vm.pte r := by
  unfold pte passup
  rcases eq_or_ne r.1 s with hr | hr
  · simp [hr]
  · simp [hr]

theorem passup_keeps (vm : Vm) (s : SuppPtr) (t : Fin 2) (saved : State) :
    vm.Keeps (vm.passup s t saved) := by
  constructor
  case supAsid =>
    intro r
    unfold passup
    rcases eq_or_ne r s with rfl | hr
    · simp
    · simp [hr]
  case entryHi => exact fun r => congrArg PteEntry.entryHi (passup_pte vm s t saved r)

theorem markInvalid_keeps (vm : Vm) (q : PtePtr) : vm.Keeps (vm.markInvalid q) := .setPte rfl

theorem markValidAndUpdateTLB_keeps (vm : Vm) (q : PtePtr) :
    vm.Keeps (vm.markValidAndUpdateTLB q) := .setPte rfl

/-- The missing page depends on the saved state and the upper halves only. -/
theorem Keeps.getMissingPageFromSupp (h : vm.Keeps vm') {s : SuppPtr}
    (hs : (vm'.supp s).supExceptState pgFaultExcept = (vm.supp s).supExceptState pgFaultExcept) :
    getMissingPageFromSupp (vm'.supp s) = getMissingPageFromSupp (vm.supp s) := by
  have hhi : ∀ i, ((vm'.supp s).supPrivatePgTbl i).entryHi =
      ((vm.supp s).supPrivatePgTbl i).entryHi := fun i => h.entryHi (s, i)
  simp only [Phase3.getMissingPageFromSupp, getMissingPage, hs, hhi]

end Vm

/-- A table is unused, or its upper halves are those of `init_uproc_pagetable`. -/
def Table (s : Support) : Prop :=
  (s.supAsid = 0 ∧ ∀ i, (s.supPrivatePgTbl i).entryHi = 0) ∨
    (UprocAsid s.supAsid ∧ ∀ i, (s.supPrivatePgTbl i).entryHi = pageHi s.supAsid i)

theorem Table.of_asid {s : Support} (h : Table s) (ha : UprocAsid s.supAsid) (i : Fin maxPages) :
    (s.supPrivatePgTbl i).entryHi = pageHi s.supAsid i := by
  rcases h with ⟨h0, -⟩ | ⟨-, h⟩
  · rw [h0] at ha
    exact absurd ha not_uprocAsid_zero
  · exact h i

theorem Vm.Keeps.table {vm vm' : Vm} (h : vm.Keeps vm') {s : SuppPtr} (ht : Table (vm.supp s)) :
    Table (vm'.supp s) := by
  rcases ht with ⟨h0, hz⟩ | ⟨ha, hb⟩
  · exact .inl ⟨(h.supAsid s).trans h0, fun i => (h.entryHi (s, i)).trans (hz i)⟩
  · refine .inr ⟨(h.supAsid s).symm ▸ ha, fun i => (h.entryHi (s, i)).trans ?_⟩
    rw [h.supAsid]
    exact hb i

/-! ## Who uses which structure -/

/-- Up to its `dealloc_supp`. -/
def Phase.uses : Phase → Bool
  | .deallocated | .notified => false
  | .user | .acquiring | .waiting | .holding | .found _ | .paging _ _ _ | .mapped | .terminating
  | .stray => true

namespace Sys

variable (k : Sys) (p : PcbPtr) (asid : Word) (supp : SuppPtr) (pool : Pool)

@[simp] theorem create_self : (k.create p asid supp pool).proc p = some ⟨asid, supp, .user⟩ :=
  Function.update_self ..

@[simp] theorem create_of_ne {r : PcbPtr} (h : r ≠ p) :
    (k.create p asid supp pool).proc r = k.proc r := Function.update_of_ne h ..

@[simp] theorem create_supp_self : (k.create p asid supp pool).vm.supp supp =
    initUprocPagetable { k.vm.supp supp with supAsid := asid } := Function.update_self ..

@[simp] theorem create_supp_of_ne {s : SuppPtr} (h : s ≠ supp) :
    (k.create p asid supp pool).vm.supp s = k.vm.supp s := Function.update_of_ne h ..

end Sys

/-- Each U-proc uses a support structure of its own, with its ASID and a table
for it; `free` are those in the pool. -/
structure Sys.Users (k : Sys) (free : List SuppPtr) : Prop where
  pool : k.pool.IsStack free
  table : ∀ s, Table (k.vm.supp s)
  busy : ∀ {p u}, k.proc p = some u → u.phase.uses = true → u.supp ∉ free
  asid : ∀ {p u}, k.proc p = some u → u.phase.uses = true →
    (k.vm.supp u.supp).supAsid = u.asid ∧ UprocAsid u.asid
  inj : ∀ {p r u v}, k.proc p = some u → k.proc r = some v → u.phase.uses = true →
    v.phase.uses = true → u.supp = v.supp → p = r

/-- How a step changes who uses what. -/
inductive UseMove (k : Sys) : Event → Sys → Prop where
  | keep {e k'} (hvm : k.vm.Keeps k'.vm) (hpool : k'.pool = k.pool)
      (hproc : ∀ r v, k'.proc r = some v → ∃ u, k.proc r = some u ∧ u.supp = v.supp ∧
        u.asid = v.asid ∧ (v.phase.uses = true → u.phase.uses = true)) : UseMove k e k'
  | free {p u} (hp : k.proc p = some u) (hu : u.phase = .terminating) :
      UseMove k (.next p)
        ({ k with pool := k.pool.deallocSupp (some u.supp) }.setPhase p u .deallocated)
  | create {e k' p asid supp pool} (hasid : UprocAsid asid)
      (halloc : k.pool.allocSupp = (some supp, pool)) (hp : k.proc p = none)
      (hvm : k'.vm = (k.create p asid supp pool).vm) (hpool : k'.pool = pool)
      (hproc : k'.proc = (k.create p asid supp pool).proc) : UseMove k e k'

section
variable {k k' : Sys} {p : PcbPtr} {u : Uproc} {e : Event} {φ : Phase}

namespace UseMove

theorem stay (hvm : k.vm.Keeps k'.vm) (hpool : k'.pool = k.pool) (hproc : k'.proc = k.proc) :
    UseMove k e k' := by
  refine .keep hvm hpool fun r v hv => ?_
  rw [hproc] at hv
  exact ⟨v, hv, rfl, rfl, id⟩

theorem move (hp : k.proc p = some u) (hvm : k.vm.Keeps k'.vm) (hpool : k'.pool = k.pool)
    (hproc : k'.proc = Function.update k.proc p (some { u with phase := φ }))
    (hu : φ.uses = true → u.phase.uses = true) : UseMove k e k' := by
  refine .keep hvm hpool fun r v hv => ?_
  rw [hproc] at hv
  rcases eq_or_ne r p with rfl | hr
  · rw [Function.update_self, Option.some.injEq] at hv
    subst hv
    exact ⟨u, hp, rfl, rfl, hu⟩
  · rw [Function.update_of_ne hr] at hv
    exact ⟨v, hv, rfl, rfl, id⟩

theorem gone (k : Sys) (p : PcbPtr) : UseMove k e (k.termProcess p) := by
  refine .keep (.of_supp rfl) rfl fun r v hv => ?_
  exact ⟨v, (Sys.of_termProcess hv).2, rfl, rfl, id⟩

end UseMove

/-- Who waits for the lock is woken, and the others stay as they are. -/
theorem wakeSwap_proc (hl : k.Locks) {r : PcbPtr} {v : Uproc} (hv : k.wakeSwap.proc r = some v) :
    k.proc r = some v ∨ ∃ u, k.proc r = some u ∧ u.phase = .waiting ∧
      v = { u with phase := .holding } := by
  cases hq : k.swapSem.queue with
  | nil =>
      rw [wakeSwap_nil hq] at hv
      exact .inl hv
  | cons p l =>
      obtain ⟨w, hw, hwait⟩ := (hl.queued p).mp (by rw [hq]; exact List.mem_cons_self)
      rw [wakeSwap_cons hq hw] at hv
      rcases eq_or_ne r p with rfl | hr
      · rw [Sys.setPhase_self, Option.some.injEq] at hv
        exact .inr ⟨w, hw, hwait, hv.symm⟩
      · rw [Sys.setPhase_of_ne _ _ _ _ hr] at hv
        exact .inl hv

/-- After a `V`, the process that has done it is back in its program. -/
theorem verhogenSwap_proc (hl : k.Locks) {r : PcbPtr} {v : Uproc}
    (hv : (k.verhogenSwap p u).proc r = some v) :
    r = p ∧ { u with phase := .user } = v ∨ r ≠ p ∧ (k.proc r = some v ∨
      ∃ w, k.proc r = some w ∧ w.phase = .waiting ∧ v = { w with phase := .holding }) := by
  rcases Sys.of_setPhase hv with h | ⟨hr, hv⟩
  · exact .inl h
  · exact .inr ⟨hr, wakeSwap_proc hl hv⟩

theorem UseMove.release (hl : k.Locks) (hp : k.proc p = some u) (hu : u.phase = .mapped) :
    UseMove k e (k.verhogenSwap p u) := by
  refine .keep (.of_supp rfl) rfl fun r v hv => ?_
  rcases verhogenSwap_proc hl hv with ⟨rfl, rfl⟩ | ⟨-, h | ⟨w, hw, hwait, rfl⟩⟩
  · exact ⟨u, hp, rfl, rfl, fun _ => by rw [hu]; rfl⟩
  · exact ⟨v, h, rfl, rfl, id⟩
  · exact ⟨w, hw, rfl, rfl, fun _ => by rw [hwait]; rfl⟩

theorem Outcome.useMove (h : Outcome k e k') (hl : k.Locks) : UseMove k e k' := by
  cases h with
  | created _ hi halloc hp => exact .create (uprocAsid_ofNat hi) halloc hp rfl rfl rfl
  | spawned hasid halloc hp => exact .create hasid halloc hp rfl rfl rfl
  | allCreated _ _ | rootDown _ _ | rootReturns _ _ => exact .stay (.of_supp rfl) rfl rfl
  | store _ _ _ | refill _ _ _ _ _ => exact .stay (.of_supp rfl) rfl rfl
  | rootEnds _ => exact .keep (.of_supp rfl) rfl nofun
  | refillEnds _ _ _ _ _ | missing _ _ _ | gone _ _ => exact .gone k _
  | fault hp hu | except hp hu =>
      exact .move hp (Vm.passup_keeps ..) rfl rfl fun _ => by rw [hu]; rfl
  | acquire hp hu | find hp hu _ | skip hp hu _ =>
      exact .move hp (.of_supp rfl) rfl rfl fun _ => by rw [hu]; rfl
  | evict hp hu _ _ => exact .move hp (Vm.markInvalid_keeps ..) rfl rfl fun _ => by rw [hu]; rfl
  | choose hp hu | writeOut hp hu _ | readIn hp hu | record hp hu | wrote hp hu | loaded hp hu =>
      exact .move hp (.of_supp rfl) rfl rfl fun _ => by rw [hu]; rfl
  | map hp hu =>
      exact .move hp (Vm.markValidAndUpdateTLB_keeps ..) rfl rfl fun _ => by rw [hu]; rfl
  | release hp hu => exact .release hl hp hu
  | dealloc hp hu => exact .free hp hu
  | notify hp hu => exact .move hp (.of_supp rfl) rfl rfl nofun

theorem UseMove.users (h : UseMove k e k') {free : List SuppPtr} (hk : k.Users free) :
    ∃ free', k'.Users free' := by
  cases h with
  | keep hvm hpool hproc =>
      refine ⟨free, hpool ▸ hk.pool, fun s => hvm.table (hk.table s), ?_, ?_, ?_⟩
      · intro r v hv huse
        obtain ⟨u, hu, hs, -, himp⟩ := hproc r v hv
        exact hs ▸ hk.busy hu (himp huse)
      · intro r v hv huse
        obtain ⟨u, hu, hs, ha, himp⟩ := hproc r v hv
        rw [hvm.supAsid, ← hs, ← ha]
        exact hk.asid hu (himp huse)
      · intro r t v w hv hw huse huse' hs
        obtain ⟨u, hu, hs₁, -, himp₁⟩ := hproc r v hv
        obtain ⟨u', hu', hs₂, -, himp₂⟩ := hproc t w hw
        exact hk.inj hu hu' (himp₁ huse) (himp₂ huse') (hs₁.trans (hs.trans hs₂.symm))
  | @free p u hp hu =>
      have huse : u.phase.uses = true := by
        rw [hu]
        rfl
      -- apart from `p`, the processes are as before
      have hother : ∀ {r : PcbPtr} {v : Uproc}, ({ k with
          pool := k.pool.deallocSupp (some u.supp) }.setPhase p u .deallocated).proc r = some v →
            v.phase.uses = true → r ≠ p ∧ k.proc r = some v := by
        intro r v hv hvuse
        rcases eq_or_ne r p with rfl | hr
        · rw [Sys.setPhase_self, Option.some.injEq] at hv
          subst hv
          exact nomatch hvuse
        · rw [Sys.setPhase_of_ne _ _ _ _ hr] at hv
          exact ⟨hr, hv⟩
      refine ⟨u.supp :: free, hk.pool.deallocSupp (hk.busy hp huse), hk.table, ?_, ?_, ?_⟩
      · intro r v hv hvuse
        obtain ⟨hr, hv⟩ := hother hv hvuse
        rw [List.mem_cons, not_or]
        exact ⟨fun hs => hr (hk.inj hv hp hvuse huse hs), hk.busy hv hvuse⟩
      · intro r v hv hvuse
        exact hk.asid (hother hv hvuse).2 hvuse
      · intro r t v w hv hw hvuse hwuse
        exact hk.inj (hother hv hvuse).2 (hother hw hwuse).2 hvuse hwuse
  | @create _ _ p asid supp pool hasid halloc hp hvm hpool hproc =>
      obtain ⟨htop, hrest⟩ := hk.pool.allocSupp
      rw [halloc] at htop hrest
      have hmem : supp ∈ free := List.mem_of_head? htop.symm
      have hself := k.create_supp_self p asid supp pool
      have hsupp : ∀ s, s ≠ supp → k'.vm.supp s = k.vm.supp s := fun s hs => by
        rw [hvm, k.create_supp_of_ne p asid supp pool hs]
      rw [← hvm] at hself
      have hcases : ∀ {r : PcbPtr} {v : Uproc}, k'.proc r = some v →
          r = p ∧ v = ⟨asid, supp, .user⟩ ∨ r ≠ p ∧ k.proc r = some v := by
        intro r v hv
        rw [hproc] at hv
        rcases eq_or_ne r p with rfl | hr
        · rw [Sys.create_self, Option.some.injEq] at hv
          exact .inl ⟨rfl, hv.symm⟩
        · rw [k.create_of_ne p asid supp pool hr] at hv
          exact .inr ⟨hr, hv⟩
      refine ⟨free.tail, hpool ▸ hrest, fun s => ?_, ?_, ?_, ?_⟩
      · rcases eq_or_ne s supp with rfl | hs
        · rw [hself]
          exact .inr ⟨hasid, fun _ => rfl⟩
        · rw [hsupp s hs]
          exact hk.table s
      · intro r v hv hvuse
        rcases hcases hv with ⟨-, rfl⟩ | ⟨-, hv⟩
        · cases hf : free with
          | nil =>
              rw [hf] at hmem
              exact nomatch hmem
          | cons x l =>
              rw [hf] at htop
              obtain rfl := Option.some.inj htop
              exact (List.nodup_cons.mp (hf ▸ hk.pool.nodup)).1
        · exact fun hm => hk.busy hv hvuse (List.mem_of_mem_tail hm)
      · intro r v hv hvuse
        rcases hcases hv with ⟨-, rfl⟩ | ⟨-, hv⟩
        · rw [hself]
          exact ⟨rfl, hasid⟩
        · rw [hsupp v.supp fun hs => hk.busy hv hvuse (hs ▸ hmem)]
          exact hk.asid hv hvuse
      · intro r t v w hv hw hvuse hwuse hs
        rcases hcases hv with ⟨hr, rfl⟩ | ⟨-, hv⟩
        · rcases hcases hw with ⟨ht, rfl⟩ | ⟨-, hw⟩
          · exact hr.trans ht.symm
          · exact absurd (hs ▸ hmem) (hk.busy hw hwuse)
        · rcases hcases hw with ⟨-, rfl⟩ | ⟨-, hw⟩
          · exact absurd (hs.symm ▸ hmem) (hk.busy hv hvuse)
          · exact hk.inj hv hw hvuse hwuse hs

theorem Machine.start_users (m : Machine) : m.start.Users Pool.initial where
  pool := Pool.initSuppStack_isStack
  table _ := .inl ⟨rfl, fun _ => rfl⟩
  busy := nofun
  asid := nofun
  inj := nofun

theorem Run.users {m : Machine} {tr : List Entry} (h : Run m tr k) :
    k.Locks ∧ ∃ free, k.Users free :=
  h.invariant (P := fun _ k => k.Locks ∧ ∃ free, k.Users free) (G := fun _ => True)
    (fun _ _ => trivial) ⟨m.start_locks, _, m.start_users⟩ fun hP hs _ => by
      obtain ⟨hl, free, hk⟩ := hP
      have hout := step_outcome hs
      exact ⟨(hout.lockMove hl).locks hl, (hout.useMove hl).users hk⟩

end

end Pandos.Phase3
