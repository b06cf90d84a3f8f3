/-
# `Pandos.Phase3.Coherence` — page tables and TLB

Three routines write the TLB: the refill handler at `tlbIndex`, and the pager
where `TLBP` finds the entry of the page it invalidates or makes valid.  They
keep the entries of one page in step with its page table entry as long as
there is at most one (`Vm.Coherent`).

The pager rewrites an entry that is there.  The refill handler adds one, for
the page whose address agrees with the missing one in bits 29 to 12, while the
TLB compares bits 31 to 12.  Below `0xC0000000` this is the same, and the page
is not there; above, it may be (`tlb_coherent`).
-/
import Pandos.Phase3.Tables

namespace Pandos.Phase3

/-! ## TLB -/

theorem tlbp_some {tlb : Fin tlbSize → PteEntry} {hi : Word} {i : Fin tlbSize}
    (h : tlbp tlb hi = some i) : hiKey (tlb i).entryHi = hiKey hi := by
  simpa using List.find?_some h

theorem tlbp_none {tlb : Fin tlbSize → PteEntry} {hi : Word} (h : tlbp tlb hi = none)
    (i : Fin tlbSize) : hiKey (tlb i).entryHi ≠ hiKey hi := by
  simpa using List.find?_eq_none.mp h i (List.mem_finRange i)

private theorem asid_fields : ∀ n : Fin uprocMax,
    let a : Word := BitVec.ofNat 32 (n + 1) <<< asidShift
    a >>> 30 = 0 ∧ entryHiGetVpn a = 0 ∧ entryHiGetAsid a = BitVec.ofNat 32 (n + 1) ∧
      ∀ i : Fin maxPages, pageHi (BitVec.ofNat 32 (n + 1)) i >>> 30 = 2 := by
  decide +kernel

/-- Below `0xC0000000` an access and the page `getMissingPage` finds have the same VPN. -/
theorem hiKey_entryHi {u : Uproc} (ha : UprocAsid u.asid) {badVAddr : Word}
    (hlo : 0x80000000 ≤ badVAddr) (hhi : badVAddr < 0xC0000000) {i : Fin maxPages}
    (hvpn : entryHiGetVpn (pageHi u.asid i) = entryHiGetVpn badVAddr) :
    hiKey (u.entryHi badVAddr) = hiKey (pageHi u.asid i) := by
  have htop : badVAddr >>> 30 = 2 := by
    have h1 : 0x80000000 ≤ badVAddr.toNat := hlo
    have h2 : badVAddr.toNat < 0xC0000000 := hhi
    apply BitVec.eq_of_toNat_eq
    rw [ushiftRight_toNat]
    show badVAddr.toNat / 2 ^ 30 = 2
    omega
  have hself := entryHiGetAsid_pageHi ha i
  obtain ⟨n, hn⟩ := ha.exists_fin
  obtain ⟨h30, h12, h6, hpage⟩ := asid_fields n
  rw [Uproc.entryHi, hn]
  rw [hn] at hvpn hself
  apply hiKey_ext
  · rw [BitVec.ushiftRight_or_distrib, BitVec.ushiftRight_and_distrib, h30, htop, hpage i]
    decide
  · rw [hvpn]
    unfold entryHiGetVpn at h12 ⊢
    rw [BitVec.ushiftRight_or_distrib, BitVec.ushiftRight_and_distrib, BitVec.and_or_distrib_right,
      h12, BitVec.and_assoc]
    exact BitVec.or_zero
  · rw [hself]
    refine Eq.trans ?_ h6
    unfold entryHiGetAsid
    rw [BitVec.ushiftRight_or_distrib, BitVec.ushiftRight_and_distrib, BitVec.and_or_distrib_right,
      BitVec.and_assoc]
    have hmask : (0xFFFFF000 : Word) >>> 6 &&& 0x3F = 0#32 := by decide
    rw [hmask, BitVec.and_zero, BitVec.zero_or]
namespace Vm

variable {vm vm' : Vm} {q : PtePtr}

/-- `q` is a page of a U-proc. -/
def UprocPage (vm : Vm) (q : PtePtr) : Prop := UprocAsid (vm.supp q.1).supAsid

/-- One entry at most for each page of a U-proc, and it equals that of its table. -/
structure Coherent (vm : Vm) : Prop where
  unique : ∀ {i j}, UprocAsid (entryHiGetAsid (vm.tlb i).entryHi) →
    hiKey (vm.tlb i).entryHi = hiKey (vm.tlb j).entryHi → i = j
  lo : ∀ {i q}, vm.UprocPage q → hiKey (vm.tlb i).entryHi = hiKey (vm.pte q).entryHi →
    (vm.tlb i).entryLo = (vm.pte q).entryLo

/-- No two U-procs have the same ASID, and none of the TLB's is above `n`. -/
structure Asids (vm : Vm) (n : Nat) : Prop where
  table : ∀ s, Table (vm.supp s)
  le : ∀ s, (vm.supp s).supAsid.toNat ≤ n
  inj : ∀ {s t}, UprocAsid (vm.supp s).supAsid →
    (vm.supp s).supAsid = (vm.supp t).supAsid → s = t
  tlb : ∀ i, UprocAsid (entryHiGetAsid (vm.tlb i).entryHi) →
    (entryHiGetAsid (vm.tlb i).entryHi).toNat ≤ n

namespace Asids

variable {n : Nat}

theorem pageHi (h : vm.Asids n) (hq : vm.UprocPage q) :
    (vm.pte q).entryHi = pageHi (vm.supp q.1).supAsid q.2 := (h.table q.1).of_asid hq q.2

theorem asid_eq (h : vm.Asids n) (hq : vm.UprocPage q) :
    entryHiGetAsid (vm.pte q).entryHi = (vm.supp q.1).supAsid := by
  rw [h.pageHi hq, entryHiGetAsid_pageHi hq]

/-- A page is determined by its `EntryHi`. -/
theorem page_inj (h : vm.Asids n) {r : PtePtr} (hq : vm.UprocPage q) (hr : vm.UprocPage r)
    (hkey : hiKey (vm.pte q).entryHi = hiKey (vm.pte r).entryHi) : q = r := by
  rw [h.pageHi hq, h.pageHi hr] at hkey
  obtain ⟨ha, hi⟩ := hiKey_inj hq hr hkey
  exact Prod.ext (h.inj hq ha) hi

theorem mono (h : vm.Asids n) {m : Nat} (hm : n ≤ m) : vm.Asids m where
  table := h.table
  le s := (h.le s).trans hm
  inj := h.inj
  tlb i hi := (h.tlb i hi).trans hm

theorem keeps (h : vm.Asids n) (hk : vm.Keeps vm')
    (htlb : ∀ i, hiKey (vm'.tlb i).entryHi = hiKey (vm.tlb i).entryHi) : vm'.Asids n where
  table s := hk.table (h.table s)
  le s := hk.supAsid s ▸ h.le s
  inj hs ht := by
    rw [hk.supAsid] at hs ht
    rw [hk.supAsid] at ht
    exact h.inj hs ht
  tlb i hi := by
    rw [asid_of_hiKey (htlb i)] at hi ⊢
    exact h.tlb i hi

end Asids

/-- Nothing changes in the TLB and in the page tables. -/
theorem Coherent.congr (h : vm.Coherent) (htlb : vm'.tlb = vm.tlb)
    (hasid : ∀ s, (vm'.supp s).supAsid = (vm.supp s).supAsid)
    (hpte : ∀ q, vm'.pte q = vm.pte q) : vm'.Coherent where
  unique := by
    rw [htlb]
    exact h.unique
  lo hq := by
    rw [UprocPage, hasid] at hq
    rw [htlb, hpte]
    exact h.lo hq

/-- The TLB's entry of the page `q`, if there is one, gets the lower half `lo`. -/
structure Rewrites (vm : Vm) (q : PtePtr) (lo : Word) (vm' : Vm) : Prop where
  supp : vm'.supp = (vm.setPte q { vm.pte q with entryLo := lo }).supp
  key : ∀ i, hiKey (vm'.tlb i).entryHi = hiKey (vm.tlb i).entryHi
  entry : ∀ i, hiKey (vm.tlb i).entryHi ≠ hiKey (vm.pte q).entryHi → vm'.tlb i = vm.tlb i
  lo : vm.UprocPage q → ∀ i, hiKey (vm.tlb i).entryHi = hiKey (vm.pte q).entryHi →
    (vm'.tlb i).entryLo = lo

theorem Rewrites.coherent {lo : Word} {n : Nat} (h : vm.Rewrites q lo vm') (ha : vm.Asids n)
    (hc : vm.Coherent) : vm'.Asids n ∧ vm'.Coherent := by
  have hkeeps : vm.Keeps vm' := .setPte h.supp
  refine ⟨ha.keeps hkeeps h.key, ?_, ?_⟩
  · intro i j hi hij
    rw [asid_of_hiKey (h.key i)] at hi
    rw [h.key, h.key] at hij
    exact hc.unique hi hij
  · intro i r hr hir
    rw [UprocPage, hkeeps.supAsid] at hr
    rw [h.key, hkeeps.entryHi] at hir
    have hpte : vm'.pte r = (vm.setPte q { vm.pte q with entryLo := lo }).pte r := by
      rw [pte, h.supp]
      rfl
    rw [hpte]
    rcases eq_or_ne r q with rfl | hne
    · rw [pte_setPte_self]
      exact h.lo hr i hir
    · rw [pte_setPte_of_ne _ _ _ _ hne]
      by_cases hiq : hiKey (vm.tlb i).entryHi = hiKey (vm.pte q).entryHi
      · -- the entry belongs to two pages, so `q` is none of a U-proc
        have hasid := asid_of_hiKey (hiq.symm.trans hir)
        have hq : vm.UprocPage q := by
          rw [ha.asid_eq hr] at hasid
          rcases ha.table q.1 with ⟨-, hz⟩ | ⟨hq, -⟩
          · have hz : (vm.pte q).entryHi = 0 := hz q.2
            rw [hz] at hasid
            have hr0 : UprocAsid (entryHiGetAsid 0) := by
              rw [hasid]
              exact hr
            exact absurd hr0 (by decide)
          · exact hq
        exact absurd (ha.page_inj hr hq (hir.symm.trans hiq)) hne
      · rw [h.entry i hiq]
        exact hc.lo hr hir

/-- What `TLBWI` does to the entry that `TLBP` has found. -/
theorem update_rewrites (lo : Word) {i : Fin tlbSize} {tlb : Fin tlbSize → PteEntry}
    (hi : hiKey (tlb i).entryHi = hiKey (vm.pte q).entryHi) (j : Fin tlbSize) :
    let new := Function.update tlb i ⟨(vm.pte q).entryHi, lo⟩
    hiKey (new j).entryHi = hiKey (tlb j).entryHi ∧
      (hiKey (tlb j).entryHi ≠ hiKey (vm.pte q).entryHi → new j = tlb j) ∧
        (j = i → (new j).entryLo = lo) := by
  intro new
  rcases eq_or_ne j i with rfl | hj
  · have hnew : new j = ⟨(vm.pte q).entryHi, lo⟩ := Function.update_self ..
    rw [hnew]
    exact ⟨hi.symm, fun hne => absurd hi hne, fun _ => rfl⟩
  · have hnew : new j = tlb j := Function.update_of_ne hj ..
    rw [hnew]
    exact ⟨rfl, fun _ => rfl, fun h => absurd h hj⟩

theorem markInvalid_rewrites {n : Nat} (ha : vm.Asids n) (hc : vm.Coherent) (q : PtePtr) :
    vm.Rewrites q ((vm.pte q).entryLo &&& ~~~validOn) (vm.markInvalid q) := by
  have hhi : ((vm.markPTEntryNotValid q).pte q).entryHi = (vm.pte q).entryHi := by
    simp [markPTEntryNotValid]
  have htlb : (vm.markPTEntryNotValid q).tlb = vm.tlb := rfl
  unfold markInvalid
  simp only [markTLBEntryNotValid, hhi, htlb]
  split
  next hnone =>
    exact ⟨rfl, fun _ => rfl, fun _ _ => rfl, fun _ i hi => absurd hi (tlbp_none hnone i)⟩
  next i hsome =>
    have hi := tlbp_some hsome
    have hnew := update_rewrites ((vm.tlb i).entryLo &&& ~~~validOn) hi
    refine ⟨rfl, fun j => (hnew j).1, fun j => (hnew j).2.1, fun hq j hj => ?_⟩
    have hji : j = i := hc.unique (by rw [asid_of_hiKey hj, ha.asid_eq hq]; exact hq)
      (hj.trans hi.symm)
    rw [← hc.lo hq hi]
    exact (hnew j).2.2 hji

theorem markValid_rewrites {n : Nat} (ha : vm.Asids n) (hc : vm.Coherent) (q : PtePtr) :
    vm.Rewrites q (frameAddr vm.frameIndexToReplace ||| validOn ||| dirtyOn)
      (vm.markValidAndUpdateTLB q) := by
  have hpte : (vm.markEntryPresentAtIndex q).pte q = ⟨(vm.pte q).entryHi,
      frameAddr vm.frameIndexToReplace ||| validOn ||| dirtyOn⟩ := by
    simp [markEntryPresentAtIndex]
  have htlb : (vm.markEntryPresentAtIndex q).tlb = vm.tlb := rfl
  unfold markValidAndUpdateTLB updateEntryInTLB
  simp only [hpte, htlb]
  split
  next hnone =>
    exact ⟨rfl, fun _ => rfl, fun _ _ => rfl, fun _ i hi => absurd hi (tlbp_none hnone i)⟩
  next i hsome =>
    have hi := tlbp_some hsome
    have hnew := update_rewrites
      (frameAddr vm.frameIndexToReplace ||| validOn ||| dirtyOn) hi
    refine ⟨rfl, fun j => (hnew j).1, fun j => (hnew j).2.1, fun hq j hj => ?_⟩
    have hji : j = i := hc.unique (by rw [asid_of_hiKey hj, ha.asid_eq hq]; exact hq)
      (hj.trans hi.symm)
    exact (hnew j).2.2 hji

/-- The refill handler adds an entry for `q`. -/
theorem Coherent.refill {n : Nat} (hc : vm.Coherent) (ha : vm.Asids n) (hq : vm.UprocPage q)
    (hspare : ∀ i, i ≠ vm.tlbIndex → hiKey (vm.tlb i).entryHi ≠ hiKey (vm.pte q).entryHi) :
    (vm.refillTLB (vm.pte q)).Asids n ∧ (vm.refillTLB (vm.pte q)).Coherent := by
  have hself : (vm.refillTLB (vm.pte q)).tlb vm.tlbIndex = vm.pte q := Function.update_self ..
  have hother : ∀ i, i ≠ vm.tlbIndex → (vm.refillTLB (vm.pte q)).tlb i = vm.tlb i := fun i hi =>
    Function.update_of_ne hi ..
  have hpte : ∀ r, (vm.refillTLB (vm.pte q)).pte r = vm.pte r := fun _ => rfl
  refine ⟨⟨ha.table, ha.le, ha.inj, fun i hi => ?_⟩, fun {i j} hi hij => ?_, fun {i r} hr hir => ?_⟩
  · rcases eq_or_ne i vm.tlbIndex with rfl | hne
    · rw [hself, ha.asid_eq hq]
      exact ha.le q.1
    · rw [hother i hne] at hi ⊢
      exact ha.tlb i hi
  · rcases eq_or_ne i vm.tlbIndex with rfl | hi'
    · rcases eq_or_ne j vm.tlbIndex with rfl | hj'
      · rfl
      · rw [hself, hother j hj'] at hij
        exact absurd hij.symm (hspare j hj')
    · rw [hother i hi'] at hi hij
      rcases eq_or_ne j vm.tlbIndex with rfl | hj'
      · rw [hself] at hij
        exact absurd hij (hspare i hi')
      · rw [hother j hj'] at hij
        exact hc.unique hi hij
  · rw [hpte] at hir ⊢
    rcases eq_or_ne i vm.tlbIndex with rfl | hi'
    · rw [hself] at hir ⊢
      rw [ha.page_inj hq hr hir]
    · rw [hother i hi'] at hir ⊢
      exact hc.lo hr hir

end Vm

/-! ## Steps -/

/-- How many U-procs `initUProcs` has created. -/
def Root.created : Root → Nat
  | .creating i => i
  | .waiting _ | .blocked _ | .returned | .ended => uprocMax

theorem notifyTerminated_created (k : Sys) : k.notifyTerminated.root.created = k.root.created := by
  unfold Sys.notifyTerminated
  cases h : k.root with
  | creating _ | waiting _ | blocked _ | returned | ended => simp [Root.created]

/-- All U-procs are those of `initUProcs`. -/
def Started (x : Entry) : Prop := ∀ p asid, x.event ≠ .spawn p asid

/-- A refill is for an address below `0xC0000000`, or for a page that has no
entry but the one that is overwritten. -/
def Spares (x : Entry) : Prop :=
  ∀ p badVAddr u i, x.event = .refill p badVAddr → x.before.proc p = some u →
    getMissingPage (x.before.vm.supp u.supp) badVAddr = some i →
      badVAddr < 0xC0000000 ∨ ∀ j, j ≠ x.before.vm.tlbIndex →
        hiKey (x.before.vm.tlb j).entryHi ≠ hiKey (x.before.vm.pte (u.supp, i)).entryHi

structure TlbInv (k : Sys) : Prop where
  locks : k.Locks
  users : ∃ free, k.Users free
  created : k.root.created ≤ uprocMax
  asids : k.vm.Asids k.root.created
  coherent : k.vm.Coherent

section
variable {k k' : Sys} {p : PcbPtr} {u : Uproc} {e : Event}

theorem getMissingPage_some {s : Support} {badVAddr : Word} {i : Fin maxPages}
    (h : getMissingPage s badVAddr = some i) :
    entryHiGetVpn (s.supPrivatePgTbl i).entryHi = entryHiGetVpn badVAddr := by
  simpa using List.find?_some h

/-- A page of the U-proc that is computing. -/
theorem Sys.Users.uprocPage {free : List SuppPtr} (h : k.Users free) (hp : k.proc p = some u)
    (hu : u.phase = .user) (i : Fin maxPages) : k.vm.UprocPage (u.supp, i) ∧
      (k.vm.pte (u.supp, i)).entryHi = pageHi u.asid i ∧ UprocAsid u.asid := by
  obtain ⟨heq, hasid⟩ := h.asid hp (by rw [hu]; rfl)
  have hpage : k.vm.UprocPage (u.supp, i) := by
    rw [Vm.UprocPage, heq]
    exact hasid
  refine ⟨hpage, ?_, hasid⟩
  rw [← heq]
  exact (h.table u.supp).of_asid hpage i

/-- The step changes neither the TLB nor page table entries. -/
theorem TlbInv.congr (h : TlbInv k) (hasid : ∀ s, (k'.vm.supp s).supAsid = (k.vm.supp s).supAsid)
    (hpte : ∀ q, k'.vm.pte q = k.vm.pte q) (htlb : k'.vm.tlb = k.vm.tlb)
    (hroot : k.root.created ≤ k'.root.created) :
    k'.vm.Asids k'.root.created ∧ k'.vm.Coherent := by
  have hkeeps : k.vm.Keeps k'.vm := ⟨hasid, fun q => congrArg PteEntry.entryHi (hpte q)⟩
  exact ⟨(h.asids.keeps hkeeps fun i => by rw [htlb]).mono hroot, h.coherent.congr htlb hasid hpte⟩

theorem TlbInv.same (h : TlbInv k) (hsupp : k'.vm.supp = k.vm.supp) (htlb : k'.vm.tlb = k.vm.tlb)
    (hroot : k.root.created ≤ k'.root.created) :
    k'.vm.Asids k'.root.created ∧ k'.vm.Coherent :=
  h.congr (fun s => by rw [hsupp]) (fun q => by rw [Vm.pte, Vm.pte, hsupp]) htlb hroot

/-- A new U-proc has an ASID that the TLB does not know. -/
theorem TlbInv.create {i : Nat} (h : TlbInv k) (p : PcbPtr) (supp : SuppPtr) (pool : Pool)
    (hroot : k.root = .creating i) (hi : i < uprocMax) :
    let vm := (k.create p (BitVec.ofNat 32 (i + 1)) supp pool).vm
    vm.Asids (i + 1) ∧ vm.Coherent := by
  intro vm
  obtain ⟨-, -, -, ha, hc⟩ := h
  rw [hroot] at ha
  have hasid := uprocAsid_ofNat hi
  have hnat : (BitVec.ofNat 32 (i + 1)).toNat = i + 1 := by
    have hi : i < 8 := hi
    simp only [BitVec.toNat_ofNat]
    omega
  have hself := k.create_supp_self p (BitVec.ofNat 32 (i + 1)) supp pool
  have hother : ∀ {s}, s ≠ supp → vm.supp s = k.vm.supp s := fun hs =>
    k.create_supp_of_ne p (BitVec.ofNat 32 (i + 1)) supp pool hs
  have hasidSelf : (vm.supp supp).supAsid = BitVec.ofNat 32 (i + 1) := congrArg _ hself
  have hle : ∀ {s}, s ≠ supp → (vm.supp s).supAsid.toNat ≤ i := fun hs => by
    rw [hother hs]
    exact ha.le _
  refine ⟨⟨fun s => ?_, fun s => ?_, fun {s t} hs hst => ?_, fun j hj => ?_⟩, hc.unique,
    fun {j q} hq hjq => ?_⟩
  · rcases eq_or_ne s supp with rfl | hs
    · rw [hself]
      exact .inr ⟨hasid, fun _ => rfl⟩
    · rw [hother hs]
      exact ha.table s
  · rcases eq_or_ne s supp with rfl | hs
    · rw [hasidSelf, hnat]
    · exact Nat.le_succ_of_le (hle hs)
  · rcases eq_or_ne s supp with rfl | hs'
    · rcases eq_or_ne t s with rfl | ht
      · rfl
      · have hlt := hle ht
        rw [← hst, hasidSelf, hnat] at hlt
        omega
    · rcases eq_or_ne t supp with rfl | ht
      · have hlt := hle hs'
        rw [hst, hasidSelf, hnat] at hlt
        omega
      · rw [hother hs'] at hs hst
        rw [hother ht] at hst
        exact ha.inj hs hst
  · exact Nat.le_succ_of_le (ha.tlb j hj)
  · rcases eq_or_ne q.1 supp with hs | hs
    · have hhi : (vm.pte q).entryHi = pageHi (BitVec.ofNat 32 (i + 1)) q.2 := by
        rw [Vm.pte, hs, hself]
        rfl
      have hj := asid_of_hiKey hjq
      rw [hhi, entryHiGetAsid_pageHi hasid] at hj
      have hlt := ha.tlb j (hj ▸ hasid)
      have heq : entryHiGetAsid (k.vm.tlb j).entryHi = BitVec.ofNat 32 (i + 1) := hj
      rw [heq, hnat] at hlt
      exact absurd hlt (Nat.not_succ_le_self i)
    · have hpte : vm.pte q = k.vm.pte q := by
        rw [Vm.pte, hother hs, Vm.pte]
      rw [Vm.UprocPage, hother hs] at hq
      rw [hpte] at hjq ⊢
      exact hc.lo hq hjq

/-- A refill that meets the condition. -/
theorem TlbInv.refill {badVAddr : Word} {i : Fin maxPages} (h : TlbInv k)
    (hspare : Spares ⟨k, .refill p badVAddr, k'⟩) (hp : k.proc p = some u) (hu : u.phase = .user)
    (haddr : 0x80000000 ≤ badVAddr) (hmiss : tlbp k.vm.tlb (u.entryHi badVAddr) = none)
    (hi : getMissingPage (k.vm.supp u.supp) badVAddr = some i) :
    let vm := k.vm.refillTLB (k.vm.pte (u.supp, i))
    vm.Asids k.root.created ∧ vm.Coherent := by
  obtain ⟨free, hk⟩ := h.users
  obtain ⟨hpage, hhi, hasid⟩ := hk.uprocPage hp hu i
  refine h.coherent.refill h.asids hpage fun j hj => ?_
  rcases hspare p badVAddr u i rfl hp hi with hbelow | hspare
  · have hvpn := getMissingPage_some hi
    have hpte : ((k.vm.supp u.supp).supPrivatePgTbl i).entryHi = pageHi u.asid i := hhi
    rw [hpte] at hvpn
    rw [hhi, ← hiKey_entryHi hasid haddr hbelow hvpn]
    exact tlbp_none hmiss j
  · exact hspare j hj

theorem Outcome.coherent (h : Outcome k e k') (hk : TlbInv k) (hs : Started ⟨k, e, k'⟩)
    (hspare : Spares ⟨k, e, k'⟩) : k'.vm.Asids k'.root.created ∧ k'.vm.Coherent := by
  have hc := hk.created
  cases h with
  | @created p i supp pool hroot hi _ _ => exact hk.create p supp pool hroot hi
  | spawned _ _ _ => exact absurd rfl (hs _ _)
  | allCreated hroot _ => exact hk.same rfl rfl hc
  | rootDown hroot _ =>
      refine hk.same rfl rfl ?_
      rw [hroot]
      dsimp only
      split
      · exact le_refl _
      · exact le_refl _
  | rootReturns hroot _ | rootEnds hroot => exact hk.same rfl rfl hc
  | store _ _ _ => exact hk.same rfl rfl (le_refl _)
  | refill hp hu haddr hmiss hi => exact hk.refill hspare hp hu haddr hmiss hi
  | refillEnds _ _ _ _ _ | missing _ _ _ | gone _ _ => exact hk.same rfl rfl (le_refl _)
  | fault _ _ | except _ _ =>
      exact hk.congr (Vm.passup_keeps ..).supAsid (fun q => Vm.passup_pte _ _ _ _ q) rfl (le_refl _)
  | acquire _ _ | find _ _ _ | choose _ _ | skip _ _ _ | writeOut _ _ _ | readIn _ _ | record _ _
  | release _ _ | dealloc _ _ | wrote _ _ | loaded _ _ => exact hk.same rfl rfl (le_refl _)
  | @evict p u page frame q _ _ _ _ =>
      exact (Vm.markInvalid_rewrites hk.asids hk.coherent q).coherent hk.asids hk.coherent
  | @map p u page frame _ _ =>
      exact (Vm.markValid_rewrites hk.asids hk.coherent page).coherent hk.asids hk.coherent
  | notify _ _ => exact hk.same rfl rfl (notifyTerminated_created k).ge

/-- Whatever the loop of `initUProcs` does, it stops at `UPROCMAX`. -/
theorem Outcome.created_le (h : Outcome k e k') (hc : k.root.created ≤ uprocMax) :
    k'.root.created ≤ uprocMax := by
  cases h with
  | created _ hi _ _ => exact hi
  | allCreated _ _ | rootReturns _ _ | rootEnds _ => exact le_refl _
  | rootDown hroot _ =>
      dsimp only
      split
      · exact le_refl _
      · exact le_refl _
  | notify _ _ => exact (notifyTerminated_created k).trans_le hc
  | spawned _ _ _ | store _ _ _ | refill _ _ _ _ _ | refillEnds _ _ _ _ _ | fault _ _
  | except _ _ | acquire _ _ | missing _ _ _ | find _ _ _ | choose _ _ | evict _ _ _ _
  | skip _ _ _ | writeOut _ _ _ | readIn _ _ | record _ _ | map _ _ | release _ _ | dealloc _ _
  | gone _ _ | wrote _ _ | loaded _ _ => exact hc

theorem Machine.start_tlb (m : Machine) : TlbInv m.start where
  locks := m.start_locks
  users := ⟨_, m.start_users⟩
  created := Nat.zero_le _
  asids :=
    { table := m.start_users.table
      le := fun _ => le_refl _
      inj := fun h => absurd h not_uprocAsid_zero
      tlb := fun i hi => absurd hi (m.tlb_free i) }
  coherent :=
    { unique := fun hi => absurd hi (m.tlb_free _)
      lo := fun h => absurd h not_uprocAsid_zero }

theorem Run.tlb {m : Machine} {tr : List Entry} (h : Run m tr k)
    (hx : ∀ x ∈ tr, Started x ∧ Spares x) : TlbInv k := by
  refine h.invariant (P := fun _ k => TlbInv k) hx m.start_tlb fun hk hs hx => ?_
  have hout := step_outcome hs
  obtain ⟨ha, hc⟩ := hout.coherent hk hx.1 hx.2
  obtain ⟨free, husers⟩ := hk.users
  exact ⟨(hout.lockMove hk.locks).locks hk.locks, (hout.useMove hk.locks).users husers,
    hout.created_le hk.created, ha, hc⟩

/-- A refill that does not meet the condition leaves two entries. -/
theorem spares_of_coherent {m : Machine} {tr : List Entry} {x : Entry} (h : Run m tr x.before)
    (hs : step x.before x.event = some x.after) (hc : x.after.vm.Coherent) : Spares x := by
  obtain ⟨k, e, k'⟩ := x
  intro p badVAddr u i he hp hi
  obtain rfl : e = .refill p badVAddr := he
  obtain ⟨-, free, hk⟩ := h.users
  have hout : Outcome k (.refill p badVAddr) k' := step_outcome hs
  cases hout with
  | @refill _ v _ j hp' hu haddr hmiss hj =>
      obtain rfl : u = v := Option.some.inj (hp.symm.trans hp')
      obtain rfl : i = j := Option.some.inj (hi.symm.trans hj)
      obtain ⟨-, hhi, hasid⟩ := hk.uprocPage hp hu i
      refine .inr fun j hj heq => hj ?_
      have hself : (k.vm.refillTLB (k.vm.pte (u.supp, i))).tlb k.vm.tlbIndex =
          k.vm.pte (u.supp, i) := Function.update_self ..
      have hother : (k.vm.refillTLB (k.vm.pte (u.supp, i))).tlb j = k.vm.tlb j :=
        Function.update_of_ne hj ..
      refine (hc.unique ?_ ?_).symm
      · show UprocAsid (entryHiGetAsid ((k.vm.refillTLB _).tlb k.vm.tlbIndex).entryHi)
        rw [hself, hhi, entryHiGetAsid_pageHi hasid]
        exact hasid
      · show hiKey ((k.vm.refillTLB _).tlb k.vm.tlbIndex).entryHi =
          hiKey ((k.vm.refillTLB _).tlb j).entryHi
        rw [hself, hother]
        exact heq.symm
  | refillEnds hp' _ _ _ hnone =>
      obtain rfl := Option.some.inj (hp.symm.trans hp')
      rw [hi] at hnone
      exact nomatch hnone

end

/-- No entry of the TLB is valid for a page whose table entry is not. -/
def Vm.NoStale (vm : Vm) : Prop := ∀ q i, vm.UprocPage q → pteEntryIsValid (vm.pte q) = false →
  hiKey (vm.tlb i).entryHi = hiKey (vm.pte q).entryHi → pteEntryIsValid (vm.tlb i) = false

theorem Vm.Coherent.noStale {vm : Vm} (h : vm.Coherent) : vm.NoStale := by
  intro q i hq hv hi
  rw [pteEntryIsValid, h.lo hq hi]
  exact hv

/-- TLB and page tables agree after every step of a run of `test_phase_3` if
and only if every refill is for an address below `0xC0000000`, or for a page
that has no entry but the one that is overwritten. -/
theorem tlb_coherent {m : Machine} {tr : List Entry} {k : Sys} (h : Run m tr k)
    (hx : ∀ x ∈ tr, Started x) :
    (∀ x ∈ tr, x.after.vm.Coherent ∧ x.after.vm.NoStale) ↔ ∀ x ∈ tr, Spares x := by
  constructor
  · intro hc x hmem
    obtain ⟨tr₁, tr₂, -, hrun, hs⟩ := h.of_mem hmem
    exact spares_of_coherent hrun hs (hc x hmem).1
  · intro hspare x hmem
    obtain ⟨tr₁, tr₂, rfl, hrun, hs⟩ := h.of_mem hmem
    have hafter : Run m (tr₁ ++ [x]) x.after := hrun.snoc hs
    have htlb := hafter.tlb fun y hy => by
      have hy' : y ∈ tr₁ ++ x :: tr₂ := by
        rcases List.mem_append.mp hy with hy | hy
        · exact List.mem_append_left _ hy
        · rw [List.mem_singleton.mp hy]
          exact hmem
      exact ⟨hx y hy', hspare y hy'⟩
    exact ⟨htlb.coherent, htlb.coherent.noStale⟩

theorem started_of_events {tr : List Entry} {es : List Event}
    (h : tr.map Trace.Entry.event = es) (hes : ∀ p asid, Event.spawn p asid ∉ es) :
    ∀ x ∈ tr, Started x := by
  intro x hx p asid he
  refine hes p asid ?_
  rw [← h, ← he]
  exact List.mem_map_of_mem hx

/-- A U-proc refers to its first page and gets it; the seventeenth page takes
its frame in the end. -/
def comesAndGoes : List Event :=
  [.root 1, .refill 1 0x80000000] ++ fillsPool ++ faultOn 16 ++ writesBack

/-- In between the entry in the TLB is valid, and after the eviction it is not. -/
theorem tlb_coherent_refill : ∃ tr k, Run .zero tr k ∧
    tr.map Trace.Entry.event = comesAndGoes ∧
      (∃ x ∈ tr, pteEntryIsValid (x.after.vm.tlb 0) = true) ∧
      pteEntryIsValid (k.vm.tlb 0) = false ∧
      ∀ x ∈ tr, x.after.vm.Coherent ∧ x.after.vm.NoStale := by
  have hany : (Trace.exec step Machine.zero.start comesAndGoes).any (fun x =>
      (∃ y ∈ x.1, pteEntryIsValid (y.after.vm.tlb 0) = true) ∧
        pteEntryIsValid (x.2.vm.tlb 0) = false) = true := by
    decide +kernel
  obtain ⟨tr, k, hrun, hevents, h⟩ := Trace.run_of_any hany
  obtain ⟨hvalid, hgone⟩ := of_decide_eq_true h
  refine ⟨tr, k, hrun, hevents, hvalid, hgone, (tlb_coherent hrun
    (started_of_events hevents ?_)).mpr ?_⟩
  · simp [comesAndGoes, fillsPool, faultOn, writesBack, readsIn]
  intro x hx p badVAddr u i he _ _
  have hmem : x.event ∈ comesAndGoes := by
    rw [← hevents]
    exact List.mem_map_of_mem hx
  rw [he] at hmem
  obtain rfl : badVAddr = 0x80000000 := by
    simp [comesAndGoes, fillsPool, faultOn, writesBack, readsIn] at hmem
    exact hmem.2
  exact .inl (by decide)

/-- The address `0xC0000000` misses, although its last bits are those of the
page that has been refilled just before. -/
theorem alias_refill : ∃ tr k, Run .zero tr k ∧
    tr.map Trace.Entry.event = [.root 1, .refill 1 0x80000000, .refill 1 0xC0000000] ∧
      UprocAsid (entryHiGetAsid (k.vm.tlb 0).entryHi) ∧
      hiKey (k.vm.tlb 0).entryHi = hiKey (k.vm.tlb 1).entryHi ∧ ¬ k.vm.Coherent := by
  have hany : (Trace.exec step Machine.zero.start
      [.root 1, .refill 1 0x80000000, .refill 1 0xC0000000]).any (fun x =>
        UprocAsid (entryHiGetAsid (x.2.vm.tlb 0).entryHi) ∧
          hiKey (x.2.vm.tlb 0).entryHi = hiKey (x.2.vm.tlb 1).entryHi) = true := by
    decide +kernel
  obtain ⟨tr, k, hrun, hevents, h⟩ := Trace.run_of_any hany
  obtain ⟨hasid, hkey⟩ := of_decide_eq_true h
  exact ⟨tr, k, hrun, hevents, hasid, hkey, fun hc => absurd (hc.unique hasid hkey) (by decide)⟩

end Pandos.Phase3
