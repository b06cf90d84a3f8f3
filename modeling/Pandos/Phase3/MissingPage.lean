/-
# `Pandos.Phase3.MissingPage` — which page is missing

`getMissingPage` and `getMissingPageFromSupp` look for the entry of a page by
its VPN, as `ENTRYHI_GET_VPN` extracts it: bits 29 to 12.  The two bits that
tell `0x80000000` from `0xC0000000` are dropped on both sides.

The page an address lies in is found all the same (`getMissingPage_iff`), and
an address of no page ends the process, unless it is one of an `Alias`: above
`0xC0000000` the pages are found a second time.  And a process without a
support structure has no page table to look into (`findsPage_iff`).
-/
import Pandos.Books
import Pandos.Passup
import Pandos.Phase3.Coherence

namespace Pandos.Phase3

open Simulation

/-! ## The logical address space -/

/-- `addr` lies in the `i`-th page of the logical address space. -/
def InPage (i : Fin maxPages) (addr : Word) : Prop :=
  addr.toNat / 4096 = if (i : Nat) = 31 then 0xBFFFF else 0x80000 + (i : Nat)

instance (i : Fin maxPages) (addr : Word) : Decidable (InPage i addr) :=
  inferInstanceAs (Decidable (_ = _))

/-- Above the user stack, where bits 29 to 12 are those of a page. -/
def Alias (addr : Word) : Prop := 0xC0000000 ≤ addr ∧ (addr < 0xC001F000 ∨ 0xFFFFF000 ≤ addr)

instance (addr : Word) : Decidable (Alias addr) := inferInstanceAs (Decidable (_ ∧ _))

/-- The upper halves of the page table are those of `init_uproc_pagetable`. -/
def Built (s : Support) : Prop :=
  ∀ i, (s.supPrivatePgTbl i).entryHi = ((initUprocPagetable s).supPrivatePgTbl i).entryHi

instance (s : Support) : Decidable (Built s) := inferInstanceAs (Decidable (∀ _, _))

section

variable {a addr : Word} {s : Support} {i j : Fin maxPages}

private theorem pageHi_vpn_fin : ∀ (n : Fin uprocMax) (i : Fin maxPages),
    (entryHiGetVpn (pageHi (BitVec.ofNat 32 (n + 1)) i)).toNat =
      if (i : Nat) = 31 then 0x3FFFF else (i : Nat) := by
  decide +kernel

theorem pageHi_vpn (ha : UprocAsid a) (i : Fin maxPages) :
    (entryHiGetVpn (pageHi a i)).toNat = if (i : Nat) = 31 then 0x3FFFF else (i : Nat) := by
  obtain ⟨n, rfl⟩ := ha.exists_fin
  exact pageHi_vpn_fin n i

theorem vpn_inj (ha : UprocAsid a)
    (h : entryHiGetVpn (pageHi a i) = entryHiGetVpn (pageHi a j)) : i = j := by
  have hnat := congrArg BitVec.toNat h
  rw [pageHi_vpn ha, pageHi_vpn ha] at hnat
  have hi : (i : Nat) < 32 := i.isLt
  have hj : (j : Nat) < 32 := j.isLt
  apply Fin.ext
  split at hnat <;> split at hnat <;> omega

/-- In `kuseg`, bits 29 to 12 leave two pages to choose from. -/
theorem vpn_iff (ha : UprocAsid a) (hku : 0x80000000 ≤ addr) :
    entryHiGetVpn (pageHi a i) = entryHiGetVpn addr ↔ InPage i addr ∨
      addr.toNat / 4096 = if (i : Nat) = 31 then 0xFFFFF else 0xC0000 + (i : Nat) := by
  have hlo : 0x80000000 ≤ addr.toNat := hku
  have hhi := addr.isLt
  have hi : (i : Nat) < 32 := i.isLt
  rw [← BitVec.toNat_inj, pageHi_vpn ha, entryHiGetVpn_toNat, InPage]
  split <;> omega

theorem alias_iff : Alias addr ↔ ∃ i : Fin maxPages,
    addr.toNat / 4096 = if (i : Nat) = 31 then 0xFFFFF else 0xC0000 + (i : Nat) := by
  have hmem : Alias addr ↔ 0xC0000000 ≤ addr.toNat ∧
      (addr.toNat < 0xC001F000 ∨ 0xFFFFF000 ≤ addr.toNat) := Iff.rfl
  rw [hmem]
  have hlt := addr.isLt
  constructor
  · rintro ⟨hlo, h | h⟩
    · refine ⟨⟨addr.toNat / 4096 - 0xC0000, show _ < 32 by omega⟩, ?_⟩
      dsimp only
      split <;> omega
    · exact ⟨31, show addr.toNat / 4096 = 0xFFFFF by omega⟩
  · rintro ⟨i, hi⟩
    have h31 : (i : Nat) < 32 := i.isLt
    split at hi <;> omega

/-- No address lies in a page and in an alias of one. -/
theorem InPage.not_alias (h : InPage i addr) : ¬ Alias addr := by
  rintro ⟨hlo, -⟩
  have hlo : 0xC0000000 ≤ addr.toNat := hlo
  have hi : (i : Nat) < 32 := i.isLt
  rw [InPage] at h
  split at h <;> omega

/-! ## Looking it up -/

theorem getMissingPage_some_iff (ha : UprocAsid s.supAsid) (hs : Built s) :
    getMissingPage s addr = some i ↔
      entryHiGetVpn (pageHi s.supAsid i) = entryHiGetVpn addr := by
  have hi : (s.supPrivatePgTbl i).entryHi = pageHi s.supAsid i := hs i
  constructor
  · intro h
    rw [← hi]
    exact getMissingPage_some h
  · intro h
    cases hj : getMissingPage s addr with
    | none =>
        have hnone := List.find?_eq_none.mp hj i (List.mem_finRange i)
        simp [hi, h] at hnone
    | some j =>
        have hj : (s.supPrivatePgTbl j).entryHi = pageHi s.supAsid j ∧
            entryHiGetVpn (s.supPrivatePgTbl j).entryHi = entryHiGetVpn addr :=
          ⟨hs j, getMissingPage_some hj⟩
        rw [vpn_inj ha (h.trans ((hj.1 ▸ hj.2).symm))]

/-- The entries found are those of the pages, aliases apart. -/
theorem getMissingPage_iff (ha : UprocAsid s.supAsid) (hs : Built s) (hku : 0x80000000 ≤ addr) :
    (∀ i, getMissingPage s addr = some i ↔ InPage i addr) ↔ ¬ Alias addr := by
  simp only [getMissingPage_some_iff ha hs, vpn_iff ha hku]
  constructor
  · intro h hal
    obtain ⟨i, hi⟩ := alias_iff.mp hal
    exact ((h i).mp (.inr hi)).not_alias hal
  · intro hal i
    refine ⟨fun h => h.resolve_right fun hi => ?_, .inl⟩
    exact hal (alias_iff.mpr ⟨i, hi⟩)

theorem getMissingPage_none (h : ∀ i, getMissingPage s addr = some i ↔ InPage i addr)
    (hout : ∀ i, ¬ InPage i addr) : getMissingPage s addr = none := by
  cases hi : getMissingPage s addr with
  | none => rfl
  | some i => exact absurd ((h i).mp hi) (hout i)

theorem getMissingPageFromSupp_eq
    (h : (s.supExceptState pgFaultExcept).entryHi >>> 12 = addr >>> 12) :
    getMissingPageFromSupp s = getMissingPage s addr := by
  have hvpn : entryHiGetVpn (s.supExceptState pgFaultExcept).entryHi = entryHiGetVpn addr :=
    congrArg (· &&& 0x3FFFF) h
  rw [getMissingPageFromSupp, getMissingPage, hvpn, getMissingPage]

end

/-! ## The refill handler -/

/-- `getMissingPage` for the process `cur`; without a support structure it
reads a page table at `NULL`. -/
def missingPage {Q : Type} (k : Kernel Q) (cur : PcbPtr) (badVAddr : Word) :
    Option (Option (Fin maxPages)) := do
  let a := k.pSupportStruct cur
  guard (a ≠ 0)
  return getMissingPage (k.supp a) badVAddr

section

variable {Q : Type} {k k' : Kernel Q} {cur : PcbPtr} {addr : Word} {fuel : Nat} {hw : Hw}

theorem missingPage_support (ha : k.pSupportStruct cur ≠ 0) :
    missingPage k cur addr = some (getMissingPage (k.supp (k.pSupportStruct cur)) addr) :=
  guard_bind_eq_some.mpr ⟨ha, rfl⟩

theorem missingPage_null (ha : k.pSupportStruct cur = 0) : missingPage k cur addr = none := by
  simp [missingPage, ha]

variable [QueueOps Q]

theorem uTLBRefillHandler_eq (hcur : k.currentProcess = some cur) :
    uTLBRefillHandler fuel hw k addr = (missingPage k cur addr).bind fun
      | none => sysTermProcess fuel hw k cur
      | some i => some (loadProcess (writeTLB k
          ((k.supp (k.pSupportStruct cur)).supPrivatePgTbl i)) cur) := by
  rw [uTLBRefillHandler, hcur]
  rcases eq_or_ne (k.pSupportStruct cur) 0 with ha | ha
  · simp [missingPage_null ha, ha]
  · rw [missingPage_support ha]
    simp only [Option.bind_eq_bind, Option.bind_some, guard, if_pos ha]
    cases getMissingPage (k.supp (k.pSupportStruct cur)) addr with
    | none | some _ => rfl

/-- Ending a process writes no TLB entry. -/
theorem sysTermProcess_tlb (h : sysTermProcess fuel hw k cur = some k') : k'.tlb = k.tlb := by
  obtain ⟨k₁, h₁, h⟩ := Option.bind_eq_some_iff.mp h
  have hun := terminateProcessRec_untouched h₁
  exact (scheduler_keeps h).2.1.trans hun.tlb

end

/-! ## Which addresses are found -/

/-- The refill handler writes the entry of the page `addr` lies in; without
such a page, or without a page table, it ends the process. -/
structure FindsPage {Q : Type} [QueueOps Q] (k : Kernel Q) (cur : PcbPtr) (addr : Word) : Prop where
  entry : ∀ i, missingPage k cur addr = some (some i) ↔
    k.pSupportStruct cur ≠ 0 ∧ InPage i addr
  writes : ∀ i, missingPage k cur addr = some (some i) → ∀ fuel hw,
    uTLBRefillHandler fuel hw k addr = some (loadProcess (writeTLB k
      ((k.supp (k.pSupportStruct cur)).supPrivatePgTbl i)) cur)
  missing : k.pSupportStruct cur = 0 ∨ (∀ i, ¬ InPage i addr) →
    missingPage k cur addr = some none
  ends : missingPage k cur addr = some none → ∀ fuel hw,
    uTLBRefillHandler fuel hw k addr = sysTermProcess fuel hw k cur ∧
      ∀ k', uTLBRefillHandler fuel hw k addr = some k' → k'.tlb = k.tlb

/-- The same of the pager, which always has a page table. -/
structure PagerFinds (s : Support) (addr : Word) : Prop where
  entry : ∀ i, getMissingPageFromSupp s = some i ↔ InPage i addr
  ends : (∀ i, ¬ InPage i addr) → ∀ (k : Sys) p u, k.proc p = some u → u.phase = .holding →
    k.vm.supp u.supp = s → ∃ k', step k (.next p) = some k' ∧ k'.proc p = none ∧ k'.vm = k.vm

section

variable {Q : Type} [QueueOps Q] {k : Kernel Q} {cur : PcbPtr} {addr : Word} {s : Support}

theorem findsPage_of_support (hcur : k.currentProcess = some cur)
    (ha : k.pSupportStruct cur ≠ 0)
    (h : ∀ i, getMissingPage (k.supp (k.pSupportStruct cur)) addr = some i ↔ InPage i addr) :
    FindsPage k cur addr where
  entry i := by
    rw [missingPage_support ha, Option.some.injEq, h]
    exact ⟨fun hi => ⟨ha, hi⟩, And.right⟩
  writes i hi fuel hw := by
    rw [uTLBRefillHandler_eq hcur, hi]
    rfl
  missing := by
    rintro (h0 | hout)
    · exact absurd h0 ha
    · rw [missingPage_support ha, getMissingPage_none h hout]
  ends hi fuel hw := by
    have heq : uTLBRefillHandler fuel hw k addr = sysTermProcess fuel hw k cur := by
      rw [uTLBRefillHandler_eq hcur, hi]
      rfl
    exact ⟨heq, fun k' hk' => sysTermProcess_tlb (heq ▸ hk')⟩

theorem pagerFinds_iff (h : (s.supExceptState pgFaultExcept).entryHi >>> 12 = addr >>> 12) :
    PagerFinds s addr ↔ ∀ i, getMissingPage s addr = some i ↔ InPage i addr := by
  constructor
  · intro hf i
    rw [← getMissingPageFromSupp_eq h]
    exact hf.entry i
  · intro hf
    constructor
    case entry =>
      intro i
      rw [getMissingPageFromSupp_eq h]
      exact hf i
    case ends =>
      rintro hout k p u hp hu rfl
      refine ⟨k.termProcess p, ?_, k.termProcess_self p, rfl⟩
      have hnone : getMissingPageFromSupp (k.vm.supp u.supp) = none :=
        (getMissingPageFromSupp_eq h).trans (getMissingPage_none hf hout)
      simp only [step, hp, Option.bind_some, Sys.next, hu, hnone]

end

/-- The handler finds the right page, or ends the process, if and only if the
process has a support structure and the address is not an alias; and so does
the pager, which always has one. -/
theorem findsPage_iff {k : Kernel Queues} {cur : PcbPtr} {addr : Word}
    (hcur : k.currentProcess = some cur) (hku : 0x80000000 ≤ addr)
    (hs : k.pSupportStruct cur ≠ 0 → UprocAsid (k.supp (k.pSupportStruct cur)).supAsid ∧
      Built (k.supp (k.pSupportStruct cur))) :
    (FindsPage k cur addr ↔ k.pSupportStruct cur ≠ 0 ∧ ¬ Alias addr) ∧
      ∀ s, UprocAsid s.supAsid → Built s →
        (s.supExceptState pgFaultExcept).entryHi >>> 12 = addr >>> 12 →
          (PagerFinds s addr ↔ ¬ Alias addr) := by
  constructor
  · constructor
    · intro h
      have ha : k.pSupportStruct cur ≠ 0 := by
        intro h0
        have hnone := h.missing (.inl h0)
        rw [missingPage_null h0] at hnone
        exact nomatch hnone
      obtain ⟨hasid, hb⟩ := hs ha
      refine ⟨ha, (getMissingPage_iff hasid hb hku).mp fun i => ?_⟩
      have hentry := h.entry i
      rw [missingPage_support ha, Option.some.injEq] at hentry
      exact hentry.trans (and_iff_right ha)
    · rintro ⟨ha, hal⟩
      obtain ⟨hasid, hb⟩ := hs ha
      exact findsPage_of_support hcur ha ((getMissingPage_iff hasid hb hku).mpr hal)
  · intro s hasid hb hhi
    rw [pagerFinds_iff hhi, getMissingPage_iff hasid hb hku]

/-- The page table of the first U-proc, wherever one is looked for. -/
def pagedMemory : Memory :=
  { Memory.zero with
    supp := fun _ =>
      initUprocPagetable ⟨1, fun _ => zeroState, fun _ => ⟨0, 0, 0⟩, fun _ => ⟨0, 0⟩⟩ }

theorem pagedScript_final : ∃ k : Kernel Queues, Reachable k ∧ k.cpu.busy ∧
    k.currentProcess = some 1 ∧ k.pSupportStruct 1 = 0x20200000 ∧
    UprocAsid (k.supp 0x20200000).supAsid ∧ Built (k.supp 0x20200000) := by
  have hany : (Script.eval walkFuel pagedMemory .zero supportedScript).any (fun x =>
      x.final.cpu.busy ∧ x.final.currentProcess = some 1 ∧ x.final.pSupportStruct 1 = 0x20200000 ∧
        UprocAsid (x.final.supp 0x20200000).supAsid ∧ Built (x.final.supp 0x20200000)) = true := by
    decide +kernel
  obtain ⟨x, hx, h⟩ := Script.exists_of_any hany
  obtain ⟨hboot, hrun, -⟩ := Script.run hx
  exact ⟨x.final, ⟨_, _, hboot, hrun⟩, of_decide_eq_true h⟩

/-- The last page of the program. -/
theorem findsPage_iff_pagedScript : ∃ k : Kernel Queues, Reachable k ∧
    FindsPage k 1 0x8001E123 := by
  obtain ⟨k, hreach, -, hcur, ha, hasid, hb⟩ := pagedScript_final
  refine ⟨k, hreach, ?_⟩
  have hiff := @findsPage_iff k 1 0x8001E123 hcur (by decide) fun _ => by
    rw [ha]
    exact ⟨hasid, hb⟩
  refine hiff.1.mpr ⟨?_, by decide⟩
  rw [ha]
  decide

/-- `0xC0000000` is taken for the first page, which it does not lie in. -/
theorem not_findsPage_alias : ∃ k : Kernel Queues, Reachable k ∧ k.currentProcess = some 1 ∧
    UprocAsid (k.supp (k.pSupportStruct 1)).supAsid ∧ Built (k.supp (k.pSupportStruct 1)) ∧
    (∀ i, ¬ InPage i 0xC0000000) ∧ ∀ fuel hw, uTLBRefillHandler fuel hw k 0xC0000000 =
      some (loadProcess (writeTLB k ((k.supp (k.pSupportStruct 1)).supPrivatePgTbl 0)) 1) := by
  obtain ⟨k, hreach, -, hcur, ha, hasid, hb⟩ := pagedScript_final
  have ha0 : k.pSupportStruct 1 ≠ 0 := by
    rw [ha]
    decide
  have hfound : getMissingPage (k.supp (k.pSupportStruct 1)) 0xC0000000 = some 0 := by
    rw [ha, getMissingPage_some_iff hasid hb, vpn_iff hasid (by decide)]
    exact .inr (by decide)
  refine ⟨k, hreach, hcur, ha ▸ hasid, ha ▸ hb, by decide, fun fuel hw => ?_⟩
  rw [uTLBRefillHandler_eq hcur, missingPage_support ha0, hfound]
  rfl

end Pandos.Phase3
