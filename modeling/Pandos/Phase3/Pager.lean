/-
# `Pandos.Phase3.Pager` — `vmSupport.c`

The page tables of the support structures, the swap pool table, the TLB, and
the flash devices the pages come from; and the functions of `vmSupport.c` and
`sysSupport.c` that work on them, up to the next system call.

The registers `EntryHi`, `EntryLo` and `Index` of the coprocessor are not part
of the state: each function sets those that it uses.  Between `TLBP` and
`TLBWI` interrupts are disabled.
-/
import Pandos.Machine
import Pandos.Phase3.Pool

namespace Pandos.Phase3

/-! ## State -/

/-- `&supp->sup_privatePgTbl[i]` -/
abbrev PtePtr := SuppPtr × Fin maxPages

/-- The contents of 4096 bytes. -/
abbrev Page := Fin 1024 → Word

/-- `swap_t` -/
structure Swap where
  swAsid : Int
  swPageNo : Word
  swPte : Option PtePtr

/-- The two registers of a flash device that the pager writes. -/
structure Dtp where
  data0 : Word
  command : Word

abbrev readBlk : Word := 2
abbrev writeBlk : Word := 3

/-- `ram` is indexed by the number of the physical page, and `dtp` and `flash`
by the number of the device. -/
structure Vm where
  swapTable : Fin poolSize → Swap
  frameIndexToReplace : Fin poolSize
  supp : SuppPtr → Support
  tlb : Fin tlbSize → PteEntry
  tlbIndex : Fin tlbSize
  dtp : Int → Dtp
  ram : Nat → Page
  flash : Int → Nat → Page

namespace Vm

def pte (vm : Vm) (q : PtePtr) : PteEntry := (vm.supp q.1).supPrivatePgTbl q.2

/-- `*q = e` -/
def setPte (vm : Vm) (q : PtePtr) (e : PteEntry) : Vm :=
  { vm with
    supp := Function.update vm.supp q.1 { vm.supp q.1 with
      supPrivatePgTbl := Function.update (vm.supp q.1).supPrivatePgTbl q.2 e } }

end Vm

def pteEntryIsValid (e : PteEntry) : Bool := e.entryLo &&& validOn ≠ 0

/-! ## Page tables -/

def getVPNAddress (index : Nat) : Word :=
  if index = 31 then 0xBFFFF else 0x80000 + BitVec.ofNat 32 index

/-- The `pte_entryHI` of page `i` of an address space. -/
def pageHi (asid : Word) (i : Fin maxPages) : Word :=
  (getVPNAddress i <<< vpnShift) ||| (asid <<< asidShift)

def initUprocPagetable (s : Support) : Support :=
  { s with supPrivatePgTbl := fun i => ⟨pageHi s.supAsid i, dirtyOn⟩ }

/-- The block of a page on its flash device. -/
def getPageNum (entryHi : Word) : Word :=
  let blockNum := entryHiGetVpn entryHi
  if blockNum = lastPageMask then BitVec.ofNat 32 maxPages - 1 else blockNum

/-- `FRAMEPOOLSTART + i * PAGESIZE` -/
def frameAddr (i : Fin poolSize) : Word :=
  framePoolStart + BitVec.ofNat 32 i * pageSize

/-- `ENTRYHI_GET_ASID(hi) - 1` -/
def devNo (hi : Word) : Int := (entryHiGetAsid hi).toNat - 1

/-- The page `getMissingPageFromSupp` returns, as its index. -/
def getMissingPageFromSupp (s : Support) : Option (Fin maxPages) :=
  getMissingPage s (s.supExceptState pgFaultExcept).entryHi

/-! ## TLB -/

/-- VPN and ASID -/
def hiKey (hi : Word) : Word := hi >>> asidShift

/-- `TLBP`: the entry with the VPN and ASID of `hi`. -/
def tlbp (tlb : Fin tlbSize → PteEntry) (hi : Word) : Option (Fin tlbSize) :=
  (List.finRange tlbSize).find? fun i => hiKey (tlb i).entryHi = hiKey hi

namespace Vm

variable (vm : Vm)

/-- The `TLBWI` of the refill handler, and `updateTLBIndex`. -/
def refillTLB (page : PteEntry) : Vm :=
  { vm with
    tlb := Function.update vm.tlb vm.tlbIndex page
    tlbIndex := ⟨(vm.tlbIndex + 1) % tlbSize, Nat.mod_lt _ (by decide)⟩ }

def markTLBEntryNotValid (q : PtePtr) : Vm :=
  let hi := (vm.pte q).entryHi
  { vm with
    tlb := match tlbp vm.tlb hi with
      | none => vm.tlb
      | some i => Function.update vm.tlb i ⟨hi, (vm.tlb i).entryLo &&& ~~~validOn⟩ }

def updateEntryInTLB (q : PtePtr) : Vm :=
  { vm with
    tlb := match tlbp vm.tlb (vm.pte q).entryHi with
      | none => vm.tlb
      | some i => Function.update vm.tlb i (vm.pte q) }

def markPTEntryNotValid (q : PtePtr) : Vm :=
  vm.setPte q { vm.pte q with entryLo := (vm.pte q).entryLo &&& ~~~validOn }

/-! ## Pager -/

def updateFrameIndexToReplace : Vm :=
  { vm with
    frameIndexToReplace :=
      match (List.finRange poolSize).find? fun i => (vm.swapTable i).swAsid = -1 with
      | some i => i
      | none => ⟨(vm.frameIndexToReplace + 1) % poolSize, Nat.mod_lt _ (by decide)⟩ }

/-- What `markInvalidAndSave` does before the write. -/
def markInvalid (q : PtePtr) : Vm := (vm.markPTEntryNotValid q).markTLBEntryNotValid q

/-- Up to the `IOWAIT`; `q` is `frame->sw_pte`. -/
def writeFromPoolToDev (frame : Swap) (q : PtePtr) : Vm :=
  { vm with
    dtp := Function.update vm.dtp (frame.swAsid - 1)
      ⟨framePoolStart + entryLoGetPfn (vm.pte q).entryLo * pageSize,
        frame.swPageNo <<< 8 ||| writeBlk⟩ }

/-- Up to the `IOWAIT`. -/
def writeFromDevToPool (page : PtePtr) : Vm :=
  { vm with
    dtp := Function.update vm.dtp (devNo (vm.pte page).entryHi)
      ⟨frameAddr vm.frameIndexToReplace, getPageNum (vm.pte page).entryHi <<< 8 ||| readBlk⟩ }

def updateSwapTableEntry (i : Fin poolSize) (pageToAdd : PtePtr) : Vm :=
  let hi := (vm.pte pageToAdd).entryHi
  { vm with
    swapTable := Function.update vm.swapTable i
      ⟨(entryHiGetAsid hi).toNat, getPageNum hi, some pageToAdd⟩ }

def markEntryPresentAtIndex (page : PtePtr) : Vm :=
  vm.setPte page { vm.pte page with
    entryLo := frameAddr vm.frameIndexToReplace ||| validOn ||| dirtyOn }

def markValidAndUpdateTLB (page : PtePtr) : Vm :=
  (vm.markEntryPresentAtIndex page).updateEntryInTLB page

/-! ## Flash devices -/

/-- The device answers; only if the status is `READY` it has carried out its command. -/
def answer (d : Int) (status : Word) : Vm :=
  let frame := ((vm.dtp d).data0 >>> 12).toNat
  let block := ((vm.dtp d).command >>> 8).toNat
  let command := (vm.dtp d).command &&& 0xFF
  { vm with
    ram :=
      if status = ready ∧ command = readBlk then Function.update vm.ram frame (vm.flash d block)
      else vm.ram
    flash :=
      if status = ready ∧ command = writeBlk then
        Function.update vm.flash d (Function.update (vm.flash d) block (vm.ram frame))
      else vm.flash }

end Vm

def frameIsOccupied (frame : Swap) : Bool := 1 ≤ frame.swAsid ∧ frame.swAsid ≤ 8

end Pandos.Phase3
