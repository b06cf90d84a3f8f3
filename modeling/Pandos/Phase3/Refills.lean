/-
# `Pandos.Phase3.Refills` — which TLB entry is replaced

`uTLB_RefillHandler` writes at `tlbIndex`, which `updateTLBIndex` moves on by
one, and that is the only `TLBWI` that brings a new page: the pager writes
where `TLBP` has found the page already (`Outcome.turn`).  So the TLB holds
the pages of the last `TLBSIZE` refills and nothing else, whatever the pager
does in between.

A page is refilled only when it is not there.  Hence between two refills of a
page there are `TLBSIZE` others (`refills_in_turn`).
-/
import Pandos.Lib.Fifo
import Pandos.Phase3.Coherence

namespace Pandos.Phase3

open Fifo

/-! ## The pages in the TLB -/

namespace Vm

variable {vm : Vm}

/-- The VPN and ASID of each entry. -/
def keys (vm : Vm) (i : Fin tlbSize) : Word := hiKey (vm.tlb i).entryHi

/-- A `TLBWI` where `TLBP` has found the page. -/
theorem keys_update {tlb : Fin tlbSize → PteEntry} {hi : Word} {i : Fin tlbSize} {e : PteEntry}
    (hi' : tlbp tlb hi = some i) (he : e.entryHi = hi) (j : Fin tlbSize) :
    hiKey (Function.update tlb i e j).entryHi = hiKey (tlb j).entryHi := by
  rcases eq_or_ne j i with rfl | hj
  · rw [Function.update_self, he, tlbp_some hi']
  · rw [Function.update_of_ne hj]

theorem markTLBEntryNotValid_keys (vm : Vm) (q : PtePtr) :
    (vm.markTLBEntryNotValid q).keys = vm.keys := by
  funext j
  simp only [keys, markTLBEntryNotValid]
  cases h : tlbp vm.tlb (vm.pte q).entryHi with
  | none => rfl
  | some i =>
      exact keys_update (e := ⟨(vm.pte q).entryHi, (vm.tlb i).entryLo &&& ~~~validOn⟩) h rfl j

theorem updateEntryInTLB_keys (vm : Vm) (q : PtePtr) : (vm.updateEntryInTLB q).keys = vm.keys := by
  funext j
  simp only [keys, updateEntryInTLB]
  cases h : tlbp vm.tlb (vm.pte q).entryHi with
  | none => rfl
  | some i => exact keys_update h rfl j

theorem refillTLB_keys (vm : Vm) (page : PteEntry) :
    (vm.refillTLB page).keys = Function.update vm.keys vm.tlbIndex (hiKey page.entryHi) := by
  funext j
  simp only [keys, refillTLB]
  rcases eq_or_ne j vm.tlbIndex with rfl | hj
  · rw [Function.update_self, Function.update_self]
  · rw [Function.update_of_ne hj, Function.update_of_ne hj, keys]

end Vm

/-! ## Refills -/

/-- The page that is refilled in a step. -/
def refilled (x : Entry) : Option Word :=
  match x.event with
  | .refill p badVAddr => (x.before.proc p).bind fun u =>
      (getMissingPage (x.before.vm.supp u.supp) badVAddr).map fun i =>
        hiKey (x.before.vm.pte (u.supp, i)).entryHi
  | .root _ | .spawn _ _ | .store _ _ _ _ | .fault _ _ | .except _ _ | .next _
  | .flashDone _ _ => none

def refills (tr : List Entry) : List Word := tr.filterMap refilled

section
variable {m : Machine} {tr : List Entry} {k k' : Sys} {p : PcbPtr} {u : Uproc} {e : Event}

theorem refilled_refill {badVAddr : Word} (k' : Sys) (hp : k.proc p = some u) :
    refilled ⟨k, .refill p badVAddr, k'⟩ =
      (getMissingPage (k.vm.supp u.supp) badVAddr).map fun i =>
        hiKey (k.vm.pte (u.supp, i)).entryHi := by
  simp only [refilled, hp, Option.bind_some]

/-- What a step does to the TLB. -/
inductive Turn (vm vm' : Vm) : Option Word → Prop where
  | keep (hkeys : vm'.keys = vm.keys) (hindex : vm'.tlbIndex = vm.tlbIndex) : Turn vm vm' none
  | refill {key} (hkeys : vm'.keys = Function.update vm.keys vm.tlbIndex key)
      (hindex : (vm'.tlbIndex : Nat) = (vm.tlbIndex + 1) % tlbSize) : Turn vm vm' (some key)

theorem Outcome.turn (h : Outcome k e k') : Turn k.vm k'.vm (refilled ⟨k, e, k'⟩) := by
  cases h with
  | @refill p u badVAddr i hp _ _ _ hi =>
      rw [refilled_refill _ hp, hi]
      exact .refill (Vm.refillTLB_keys ..) rfl
  | refillEnds hp _ _ _ hi =>
      rw [refilled_refill _ hp, hi]
      exact .keep rfl rfl
  | evict _ _ _ _ => exact .keep (Vm.markTLBEntryNotValid_keys ..) rfl
  | map _ _ => exact .keep (Vm.updateEntryInTLB_keys ..) rfl
  | release _ _ => exact .keep rfl rfl
  | _ => exact .keep rfl rfl

/-- After the refills `l`: each has been at the next index. -/
structure Window (m : Machine) (l : List Word) (vm : Vm) : Prop where
  index : vm.tlbIndex = Fin.ofNat tlbSize l.length
  filled : Filled m.start.vm.keys l vm.keys

theorem Turn.window {l : List Word} {vm vm' : Vm} {r : Option Word} (h : Turn vm vm' r)
    (hw : Window m l vm) : Window m (l ++ r.toList) vm' := by
  cases h with
  | keep hkeys hindex =>
      rw [Option.toList_none, List.append_nil]
      exact ⟨hindex.trans hw.index, hkeys ▸ hw.filled⟩
  | @refill key hkeys hindex =>
      constructor
      · apply Fin.ext
        rw [hindex, hw.index, Option.toList_some, List.length_append]
        exact Nat.mod_add_mod ..
      · rw [hkeys, hw.index]
        exact hw.filled.concat key

theorem Run.window (h : Run m tr k) : Window m (refills tr) k.vm := by
  induction h with
  | nil => exact ⟨rfl, Filled.nil _⟩
  | @snoc tr k e k' _ hs ih =>
      have hw := (step_outcome hs).turn.window ih
      rw [refills, List.filterMap_append]
      exact hw

/-- Whoever refills a page below `0xC0000000` has not found it. -/
theorem refilled_missing (hrun : Run m tr k) (hs : step k e = some k')
    (hlow : ∀ p badVAddr, e = .refill p badVAddr → badVAddr < 0xC0000000) {key : Word}
    (hx : refilled ⟨k, e, k'⟩ = some key) (i : Fin tlbSize) : k.vm.keys i ≠ key := by
  obtain ⟨-, free, husers⟩ := hrun.users
  cases step_outcome hs with
  | @refill p u badVAddr j hp hu haddr hmiss hj =>
      rw [refilled_refill _ hp, hj] at hx
      obtain rfl := Option.some.inj hx
      obtain ⟨-, hhi, hasid⟩ := husers.uprocPage hp hu j
      have hvpn := getMissingPage_some hj
      have hpte : ((k.vm.supp u.supp).supPrivatePgTbl j).entryHi = pageHi u.asid j := hhi
      rw [hpte] at hvpn
      show k.vm.keys i ≠ hiKey (k.vm.pte (u.supp, j)).entryHi
      rw [hhi, ← hiKey_entryHi hasid haddr (hlow p badVAddr rfl) hvpn]
      exact tlbp_none hmiss i
  | refillEnds hp _ _ _ hnone =>
      rw [refilled_refill _ hp, hnone] at hx
      exact nomatch hx
  | _ => exact nomatch hx

end

/-- Once there have been `TLBSIZE` refills, the TLB holds the pages of the last
`TLBSIZE`, in all runs, and between two refills of a page there are as many
others, if the second is for an address below `0xC0000000`. -/
theorem refills_in_turn {m : Machine} {tr : List Entry} {k : Sys} (h : Run m tr k) :
    (tlbSize ≤ (refills tr).length → ∀ key, (∃ i, hiKey (k.vm.tlb i).entryHi = key) ↔
      key ∈ (refills tr).drop ((refills tr).length - tlbSize)) ∧
    ∀ tr₁ x tr₂ y tr₃ key, tr = tr₁ ++ x :: tr₂ ++ y :: tr₃ →
      refilled x = some key → refilled y = some key →
        (∀ p badVAddr, y.event = .refill p badVAddr → badVAddr < 0xC0000000) →
          tlbSize ≤ (refills tr₂).length := by
  refine ⟨fun hfull key => (Run.window h).filled.mem_iff hfull, ?_⟩
  rintro tr₁ x tr₂ ⟨s, e, s'⟩ tr₃ key rfl hx hy hlow
  obtain ⟨hrun, hs, -⟩ := h.split
  have hwindow := (Run.window hrun).filled
  have hcut : refills (tr₁ ++ x :: tr₂) = refills tr₁ ++ key :: refills tr₂ := by
    rw [refills, List.filterMap_append, List.filterMap_cons, hx]
    rfl
  rw [hcut] at hwindow
  exact hwindow.apart (refilled_missing hrun hs hlow hy)

/-- The first U-proc refers to seventeen pages, and to the first of them again. -/
def again : List Event :=
  (List.finRange 17).map (fun i => .refill 1 (0x80000000 + 4096 * BitVec.ofNat 32 i)) ++
    [.refill 1 0x80000000]

theorem refills_in_turn_again : ∃ tr₁ x tr₂ y k key, Run .zero (tr₁ ++ x :: tr₂ ++ [y]) k ∧
    refilled x = some key ∧ refilled y = some key ∧ tlbSize ≤ (refills tr₂).length := by
  have hany : (Trace.exec step Machine.zero.start (.root 1 :: again)).any (fun z =>
      match z.1 with
      | _ :: x :: rest => rest.getLast?.any fun y =>
          decide (refilled x = refilled y ∧ (refilled x).isSome) &&
            match y.event with
            | .refill _ badVAddr => decide (badVAddr < 0xC0000000)
            | _ => true
      | _ => false) = true := by
    decide +kernel
  obtain ⟨tr, k, hrun, -, h⟩ := Trace.run_of_any hany
  rcases tr with _ | ⟨a, _ | ⟨x, rest⟩⟩
  · exact nomatch h
  · exact nomatch h
  · obtain ⟨y, hlast, h⟩ := (Option.any_eq_true _ _).mp h
    obtain ⟨hxy, hlow⟩ := (Bool.and_eq_true_iff).mp h
    obtain ⟨hxy, hsome⟩ := of_decide_eq_true hxy
    obtain ⟨key, hx⟩ := Option.isSome_iff_exists.mp hsome
    have hy := hxy.symm.trans hx
    obtain ⟨tr₂, rfl⟩ := List.getLast?_eq_some_iff.mp hlast
    have hcut : a :: x :: (tr₂ ++ [y]) = [a] ++ x :: tr₂ ++ [y] := by simp
    rw [hcut] at hrun
    refine ⟨[a], x, tr₂, y, k, key, hrun, hx, hy, ?_⟩
    refine (refills_in_turn hrun).2 [a] x tr₂ y [] key rfl hx hy fun p badVAddr he => ?_
    rw [he] at hlow
    exact of_decide_eq_true hlow

end Pandos.Phase3
