/-
# `Pandos.Tree` — the process tree of `pcb.c`

`emptyChild`, `insertChild`, `removeChild`, `outChild` and `unlinkChild`,
assignment by assignment, on the four tree fields of the PCBs.

Two assignments decide everything that is said about the tree later.
`outChild` makes `p_prev_sib` the first child of the parent, where the line
commented out above it takes `p_next_sib`; and `unlinkChild` has cleared
`p_prev_sib` by the time it hands it to the next sibling.

`treeWalk` is `terminate_Process_rec` as far as the tree is concerned: it
takes the subtree of `p` apart and returns the PCBs in the order in which
they are given up.
-/
import Pandos.Types

namespace Pandos

namespace Tree

def setPrnt (t : Tree) (p : PcbPtr) (v : Option PcbPtr) : Tree :=
  { t with pPrnt := Function.update t.pPrnt p v }

def setChild (t : Tree) (p : PcbPtr) (v : Option PcbPtr) : Tree :=
  { t with pChild := Function.update t.pChild p v }

def setNextSib (t : Tree) (p : PcbPtr) (v : Option PcbPtr) : Tree :=
  { t with pNextSib := Function.update t.pNextSib p v }

def setPrevSib (t : Tree) (p : PcbPtr) (v : Option PcbPtr) : Tree :=
  { t with pPrevSib := Function.update t.pPrevSib p v }

end Tree

def emptyChild (t : Tree) (p : PcbPtr) : Bool := (t.pChild p).isNone

/-- The loop of `insertChild`: it visits distinct PCBs or never ends. -/
def lastSib (t : Tree) : Nat → PcbPtr → Option PcbPtr
  | 0, _ => none
  | fuel + 1, iter =>
      match t.pNextSib iter with
      | none => some iter
      | some nx => lastSib t fuel nx

def insertChild (t : Tree) (prnt p : PcbPtr) : Option Tree := do
  let t := t.setPrnt p (some prnt)
  let t := t.setNextSib p none
  match t.pChild prnt with
  | none =>
      let t := t.setChild prnt (some p)
      return t.setPrevSib p none
  | some iter =>
      let iter ← lastSib t maxProc iter
      let t := t.setNextSib iter (some p)
      return t.setPrevSib p (some iter)

def unlinkChild (t : Tree) (p : PcbPtr) : Tree :=
  let t := t.setPrnt p none
  let t :=
    match t.pPrevSib p with
    | none => t
    | some s =>
        let t := t.setNextSib s (t.pNextSib p)
        t.setPrevSib p none
  match t.pNextSib p with
  | none => t
  | some s =>
      let t := t.setPrevSib s (t.pPrevSib p)
      t.setNextSib p none

def removeChild (t : Tree) (p : PcbPtr) : Option PcbPtr × Tree :=
  match t.pChild p with
  | none => (none, t)
  | some child =>
      let t := t.setChild p (t.pNextSib child)
      (some child, unlinkChild t child)

def outChild (t : Tree) (p : PcbPtr) : Tree :=
  match t.pPrnt p with
  | none => t
  | some prnt =>
      let t := if t.pChild prnt = some p then t.setChild prnt (t.pPrevSib p) else t
      unlinkChild t p

/-- Nobody has a parent, a child or a sibling. -/
def Tree.empty : Tree := ⟨fun _ => none, fun _ => none, fun _ => none, fun _ => none⟩

/-- The links `allocPcb` clears. -/
def Tree.clear (t : Tree) (p : PcbPtr) : Tree :=
  (((t.setChild p none).setPrnt p none).setNextSib p none).setPrevSib p none

mutual

/-- `terminate_Process_rec(current)` on the tree alone. -/
def treeWalk : Nat → Tree → PcbPtr → Option (List PcbPtr × Tree)
  | 0, _, _ => none
  | fuel + 1, t, current => do
      let (vs, t) ← treeWalkChildren fuel (outChild t current) current
      return (vs ++ [current], t)

/-- Its loop: the children are removed and terminated one by one. -/
def treeWalkChildren : Nat → Tree → PcbPtr → Option (List PcbPtr × Tree)
  | 0, _, _ => none
  | fuel + 1, t, current =>
      match removeChild t current with
      | (none, t) => some ([], t)
      | (some child, t) => do
          let (vs, t) ← treeWalk fuel t child
          let (ws, t) ← treeWalkChildren fuel t current
          return (vs ++ ws, t)

end

end Pandos
