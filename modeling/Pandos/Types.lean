/-
# `Pandos.Types` — constants and data types

The constants of `pandos_const.h` that the modelled functions use, the bit
fields of the coprocessor registers, and the records of `pandos_types.h`.

A machine word is a `BitVec 32`.  A pointer into one of the kernel's static
tables is an index of that table, and a null pointer is `none`; a pointer to
memory outside the tables (`p_semAdd`, `p_supportStruct`) is the word itself,
and null is `0`.

The register file `gpr` and the macros `reg_v0`, `reg_a0`, … are those of the
`umps3` headers the sources include; so are the field extractors
`CAUSE_GET_EXCCODE` (bits 6..2), `ENTRYHI_GET_VPN` (29..12),
`ENTRYHI_GET_ASID` (11..6) and `ENTRYLO_GET_PFN` (31..12).
-/
import Mathlib.Algebra.GroupWithZero.Nat
import Mathlib.Data.Fintype.Pi
import Mathlib.Data.List.FinRange
import Mathlib.Logic.Function.Basic

namespace Pandos

abbrev Word := BitVec 32

/-- The memory after `*a = v`. -/
def store (m : Word → Int) (a : Word) (v : Int) : Word → Int := fun x => if x = a then v else m x

@[simp] theorem store_self (m : Word → Int) (a : Word) (v : Int) : store m a v a = v := if_pos rfl

@[simp] theorem store_of_ne {m : Word → Int} {a x : Word} {v : Int} (h : x ≠ a) :
    store m a v x = m x := if_neg h

theorem store_eq_self {m : Word → Int} {a : Word} {v : Int} (h : m a = v) : store m a v = m := by
  funext x
  by_cases hx : x = a
  · rw [hx, store_self, h]
  · rw [store_of_ne hx]

/-! ## `pandos_const.h` -/

abbrev pageSize : Word := 4096
abbrev maxProc : Nat := 40
abbrev uprocMax : Nat := 8
abbrev poolSize : Nat := uprocMax * 2
abbrev maxPages : Nat := 32
abbrev tlbSize : Nat := 16
abbrev vpnShift : Nat := 12
abbrev asidShift : Nat := 6
abbrev lastPageMask : Word := 0x3FFFF

abbrev pgFaultExcept : Fin 2 := 0
abbrev generalExcept : Fin 2 := 1

abbrev createProcess : Word := 1
abbrev termProcess : Word := 2
abbrev passerenCall : Word := 3
abbrev verhogenCall : Word := 4
abbrev ioWait : Word := 5
abbrev getTime : Word := 6
abbrev clockWait : Word := 7
abbrev getSupportPtr : Word := 8
abbrev terminate : Word := 9
abbrev getTod : Word := 10
abbrev writePrinter : Word := 11
abbrev writeTerminal : Word := 12
abbrev readTerminal : Word := 13

abbrev userPOn : Word := 0x00000008
abbrev timeSlice : Word := 5000
abbrev dirtyOn : Word := 0x00000400
abbrev validOn : Word := 0x00000200

abbrev ramStart : Word := 0x20000000
abbrev osFrames : Word := 32
abbrev devPerInt : Word := 8
abbrev flashPoolStart : Word := ramStart + osFrames * pageSize
abbrev diskPoolStart : Word := flashPoolStart + devPerInt * pageSize
abbrev framePoolStart : Word := diskPoolStart + devPerInt * pageSize

abbrev uprocStartAddr : Word := 0x800000B0
abbrev userStackTop : Word := 0xC0000000

/-! The static tables have an entry `0`. -/

instance : NeZero maxProc := ⟨by decide⟩
instance (priority := 10000) : NeZero (maxProc + 2) := ⟨by decide⟩
instance : NeZero poolSize := ⟨by decide⟩
instance : NeZero maxPages := ⟨by decide⟩
instance : NeZero tlbSize := ⟨by decide⟩

/-! ## Bit fields of the coprocessor registers -/

def causeGetExcCode (cause : Word) : Word := (cause >>> 2) &&& 0x1F
def causeIpMask : Word := 0xFF00
def causeIp (line : Nat) : Word := 1 <<< (8 + line)
def entryHiGetVpn (hi : Word) : Word := (hi >>> 12) &&& 0x3FFFF
def entryHiGetAsid (hi : Word) : Word := (hi >>> 6) &&& 0x3F
def entryLoGetPfn (lo : Word) : Word := lo >>> 12

/-- The exception codes of the `Cause` register. -/
abbrev excInt : Word := 0
abbrev excMod : Word := 1
abbrev excTlbl : Word := 2
abbrev excTlbs : Word := 3
abbrev excAdel : Word := 4
abbrev excAdes : Word := 5
abbrev excIbe : Word := 6
abbrev excDbe : Word := 7
abbrev excSys : Word := 8
abbrev excBp : Word := 9
abbrev excRi : Word := 10
abbrev excCpu : Word := 11
abbrev excOv : Word := 12

/-! ## Processor states -/

abbrev stateGprLen : Nat := 29

instance : NeZero stateGprLen := ⟨by decide⟩

/-- `state_t` -/
structure State where
  entryHi : Word
  cause : Word
  status : Word
  pcEpc : Word
  gpr : Fin stateGprLen → Word
  hi : Word
  lo : Word
deriving DecidableEq

namespace State

def regV0 (s : State) : Word := s.gpr 1
def regA0 (s : State) : Word := s.gpr 3
def regA1 (s : State) : Word := s.gpr 4
def regA2 (s : State) : Word := s.gpr 5
def regA3 (s : State) : Word := s.gpr 6

def setV0 (s : State) (v : Word) : State := { s with gpr := Function.update s.gpr 1 v }

end State

/-- `copyState(src, dest)`, as the new contents of `*dest`. -/
def copyState (src dest : State) : State :=
  let dest := (List.finRange stateGprLen).foldl
    (fun d i => { d with gpr := Function.update d.gpr i (src.gpr i) }) dest
  { dest with
    entryHi := src.entryHi, pcEpc := src.pcEpc, cause := src.cause, status := src.status,
    hi := src.hi, lo := src.lo }

private theorem foldl_copy_gpr (src : State) : ∀ (l : List (Fin stateGprLen)) (d : State),
    ∀ j, (l.foldl (fun d i => { d with gpr := Function.update d.gpr i (src.gpr i) }) d).gpr j
      = if j ∈ l then src.gpr j else d.gpr j
  | [], _, _ => by simp
  | i :: l, d, j => by
      rw [List.foldl_cons, foldl_copy_gpr src l]
      by_cases hl : j ∈ l
      · simp [hl]
      · by_cases hi : j = i
        · subst hi; simp [hl]
        · simp [hl, hi]

/-- The loop and the six assignments reach every field. -/
@[simp] theorem copyState_eq (src dest : State) : copyState src dest = src := by
  have h := foldl_copy_gpr src (List.finRange stateGprLen) dest
  simp only [List.mem_finRange, if_true] at h
  have h' := funext h
  obtain ⟨_, _, _, _, _, _, _⟩ := src
  simp only [copyState, h']

/-! ## Support structures -/

/-- `context_t` -/
structure Context where
  stackPtr : Word
  status : Word
  pc : Word
deriving DecidableEq

/-- `pteEntry_t` -/
structure PteEntry where
  entryHi : Word
  entryLo : Word
deriving DecidableEq

/-- `support_t`, less the two stacks (nothing reads them) and the links of
the free stack (`Pandos.Phase3.Pool`). -/
structure Support where
  supAsid : Word
  supExceptState : Fin 2 → State
  supExceptContext : Fin 2 → Context
  supPrivatePgTbl : Fin maxPages → PteEntry

/-! ## Process control blocks -/

/-- `&pcbFree_table[i]` -/
abbrev PcbPtr := Fin maxProc

instance : LawfulBEq PcbPtr := inferInstance

/-- The process tree fields of the PCBs. -/
structure Tree where
  pPrnt : PcbPtr → Option PcbPtr
  pChild : PcbPtr → Option PcbPtr
  pNextSib : PcbPtr → Option PcbPtr
  pPrevSib : PcbPtr → Option PcbPtr

/-- `&semd_table[i]`; `0` and `1` are the sentinels. -/
abbrev SemdPtr := Fin (maxProc + 2)

/-- `swap_t` has its own module; this is the upper sentinel's `s_semAdd`. -/
abbrev maxAdd : Word := 0x7FFFFFFF

end Pandos
