/-
# `Pandos.Phase3.SuppStack` — the pool of support structures over a run

`alloc_supp` and `dealloc_supp` are called in any order, from a pool with
nothing in it on; a structure is deallocated only when it is not in the pool.

`stacked tr` is read off the calls alone: what was deallocated and has not
been handed out since, the latest first.  `pool_stack` says that the pool is
that stack (`Linked`), and what each call does to it (`Serves`).  The one fact
behind both is `IsStack`, and each call keeps it (`call_isStack`).
-/
import Pandos.Lib.Trace
import Pandos.Lib.Walk
import Pandos.Phase3.Pool

open Trace (Run)

namespace Pandos.Phase3

inductive SuppCall where
  | alloc
  | dealloc (supp : Option SuppPtr)
deriving DecidableEq

namespace Pool

def call (p : Pool) : SuppCall → Option Pool
  | .alloc => some p.allocSupp.2
  | .dealloc supp => some (p.deallocSupp supp)

/-- The structures in the pool, from the top along `prev_supp`. -/
def contents (p : Pool) : List SuppPtr :=
  Intrusive.walk p.prevSupp (fun _ => false) (uprocMax + 1) p.freeSuppTp

abbrev Call := Trace.Entry Pool SuppCall

namespace Call

/-- The structure a call hands out. -/
def handedOut (x : Call) : Option SuppPtr :=
  match x.event with
  | .alloc => x.before.allocSupp.1
  | .dealloc _ => none

/-- The structure a call is given. -/
def returned (x : Call) : Option SuppPtr :=
  match x.event with
  | .alloc => none
  | .dealloc supp => supp

/-- Nothing is deallocated that is in the pool. -/
def Proper (x : Call) : Prop := ∀ s ∈ x.returned, s ∉ x.before.contents

instance (x : Call) : Decidable x.Proper :=
  inferInstanceAs (Decidable (∀ s ∈ x.returned, s ∉ x.before.contents))

end Call

/-- Deallocated and not handed out since, the latest first. -/
def stacked (tr : List Call) : List SuppPtr :=
  tr.foldl (fun l x => x.returned.toList ++ l.diff x.handedOut.toList) []

/-- Handed out and not deallocated since. -/
def inUse (tr : List Call) : List SuppPtr :=
  tr.foldl (fun l x => x.handedOut.toList ++ l.diff x.returned.toList) []

/-- The doubly linked stack `l`, top first. -/
structure Linked (p : Pool) (l : List SuppPtr) : Prop where
  top : p.freeSuppTp = l.head?
  top_next : ∀ x ∈ p.freeSuppTp, p.nextSupp x = none
  /-- In particular the last structure has nothing below. -/
  prev : ∀ i x, l[i]? = some x → p.prevSupp x = l[i + 1]?
  next : ∀ i x, l[i + 1]? = some x → p.nextSupp x = l[i]?
  inverse : ∀ x ∈ l, ∀ y ∈ l, p.prevSupp x = some y ↔ p.nextSupp y = some x
  nodup : l.Nodup

/-- What a call does after the calls `tr`. -/
structure Serves (tr : List Call) (x : Call) : Prop where
  latest : x.event = .alloc → x.handedOut = (stacked tr).head?
  null_iff : x.event = .alloc → (x.handedOut = none ↔ x.before.contents = [])
  detached : ∀ s ∈ x.handedOut, x.after.nextSupp s = none ∧ x.after.prevSupp s = none
  fresh : ∀ s ∈ x.handedOut, s ∉ inUse tr
  untouched : ∀ s, s ∉ stacked tr → s ∉ x.returned →
    x.after.nextSupp s = x.before.nextSupp s ∧ x.after.prevSupp s = x.before.prevSupp s

/-! ## The links of a stack -/

namespace Down

variable {p : Pool} {above s : Option SuppPtr} {l : List SuppPtr}

theorem eq_head (h : p.Down above s l) : s = l.head? := by
  cases l with
  | nil => exact h
  | cons x l => exact h.1

theorem seg (h : p.Down above s l) : Intrusive.Seg p.prevSupp s l none := by
  induction l generalizing above s with
  | nil => exact h
  | cons x l ih => exact ⟨h.1, ih h.2.2⟩

theorem prev (h : p.Down above s l) : ∀ i x, l[i]? = some x → p.prevSupp x = l[i + 1]? := by
  induction l generalizing above s with
  | nil =>
      intro i x hx
      cases hx
  | cons y l ih =>
      obtain ⟨-, -, hrest⟩ := h
      intro i x hx
      cases i with
      | zero =>
          obtain rfl : y = x := Option.some.inj hx
          rw [hrest.eq_head]
          exact List.head?_eq_getElem?
      | succ i => exact ih hrest i x hx

/-- Each structure's `next_supp` is the entry before it. -/
theorem next (h : p.Down above s l) :
    ∀ (i : Nat) x, l[i]? = some x → (above :: l.map some)[i]? = some (p.nextSupp x) := by
  induction l generalizing above s with
  | nil =>
      intro i x hx
      cases hx
  | cons y l ih =>
      obtain ⟨-, hnext, hrest⟩ := h
      intro i x hx
      cases i with
      | zero =>
          obtain rfl : y = x := Option.some.inj hx
          exact congrArg some hnext.symm
      | succ i => exact ih hrest i x hx

end Down

namespace IsStack

variable {p : Pool} {l : List SuppPtr}

theorem next_top (h : p.IsStack l) {x : SuppPtr} (hx : p.freeSuppTp = some x) :
    p.nextSupp x = none := by
  rw [h.freeSuppTp, List.head?_eq_getElem?] at hx
  exact (Option.some.inj (h.down.next 0 x hx)).symm

theorem next (h : p.IsStack l) (i : Nat) (x : SuppPtr) (hx : l[i + 1]? = some x) :
    p.nextSupp x = l[i]? := by
  have hnext := h.down.next (i + 1) x hx
  rw [List.getElem?_cons_succ, List.getElem?_map] at hnext
  obtain ⟨y, hy, hxy⟩ := Option.map_eq_some_iff.mp hnext
  rw [hy, hxy]

theorem linked (h : p.IsStack l) : p.Linked l where
  top := h.freeSuppTp
  top_next _ hx := h.next_top hx
  prev := h.down.prev
  next := h.next
  nodup := h.nodup
  inverse := by
    intro x hx y hy
    constructor
    · intro hxy
      obtain ⟨i, hi⟩ := List.mem_iff_getElem?.mp hx
      rw [h.down.prev i x hi] at hxy
      rw [h.next i y hxy, hi]
    · intro hyx
      obtain ⟨j, hj⟩ := List.mem_iff_getElem?.mp hy
      cases j with
      | zero =>
          rw [h.next_top (h.freeSuppTp.trans (List.head?_eq_getElem?.trans hj))] at hyx
          cases hyx
      | succ j =>
          rw [h.next j y hj] at hyx
          rw [h.down.prev j x hyx, hj]

theorem contents_eq (h : p.IsStack l) : p.contents = l := by
  refine h.down.seg.walk_eq ?_
  simpa using List.Nodup.length_le_card h.nodup

/-- A structure outside the pool is not touched by `alloc_supp`. -/
theorem alloc_links (h : p.IsStack l) {z : SuppPtr} (hz : z ∉ l) :
    p.allocSupp.2.nextSupp z = p.nextSupp z ∧ p.allocSupp.2.prevSupp z = p.prevSupp z := by
  have htop := h.freeSuppTp
  unfold Pool.allocSupp
  cases l with
  | nil =>
      rw [htop]
      exact ⟨rfl, rfl⟩
  | cons x l =>
      have hzx : z ≠ x := fun e => hz (e ▸ List.mem_cons_self)
      have hbelow : p.prevSupp x = l.head? := h.down.2.2.eq_head
      rw [htop]
      cases l with
      | nil => simp [hbelow, setNext, setPrev, hzx]
      | cons y l =>
          have hzy : z ≠ y := fun e => hz (e ▸ List.mem_cons_of_mem _ List.mem_cons_self)
          simp [hbelow, setNext, setPrev, hzx, hzy]

/-- Nor by `dealloc_supp`, if it is not the one deallocated. -/
theorem dealloc_links (h : p.IsStack l) {x z : SuppPtr} (hz : z ∉ l) (hzx : z ≠ x) :
    (p.deallocSupp (some x)).nextSupp z = p.nextSupp z ∧
      (p.deallocSupp (some x)).prevSupp z = p.prevSupp z := by
  have htop := h.freeSuppTp
  unfold Pool.deallocSupp
  cases l with
  | nil =>
      rw [htop]
      simp [setNext, setPrev, hzx]
  | cons y l =>
      have hzy : z ≠ y := fun e => hz (e ▸ List.mem_cons_self)
      rw [htop]
      simp [setNext, setPrev, hzx, hzy]

end IsStack

/-- The structure handed out is linked to nothing. -/
theorem allocSupp_detached {p : Pool} {s : SuppPtr} (h : p.allocSupp.1 = some s) :
    p.allocSupp.2.nextSupp s = none ∧ p.allocSupp.2.prevSupp s = none := by
  unfold Pool.allocSupp at h ⊢
  cases htop : p.freeSuppTp with
  | none =>
      rw [htop] at h
      cases h
  | some x =>
      rw [htop] at h
      obtain rfl : x = s := Option.some.inj h
      simp [setNext, setPrev]

/-! ## Runs -/

section

variable {p₀ p p' : Pool} {tr : List Call} {c : SuppCall}

@[simp] theorem stacked_snoc {x : Call} :
    stacked (tr ++ [x]) = x.returned.toList ++ (stacked tr).diff x.handedOut.toList := by
  simp [stacked]

@[simp] theorem inUse_snoc {x : Call} :
    inUse (tr ++ [x]) = x.handedOut.toList ++ (inUse tr).diff x.returned.toList := by
  simp [inUse]

/-- The pool is the stack `l`, and the structures `used` are not in it. -/
structure Parts (p : Pool) (l used : List SuppPtr) : Prop where
  stack : p.IsStack l
  apart : ∀ s ∈ used, s ∉ l
  nodup : used.Nodup

namespace Parts

variable {l used : List SuppPtr}

theorem alloc (h : p.Parts l used) : p.allocSupp.2.Parts l.tail (l.head?.toList ++ used) := by
  obtain ⟨-, hstack⟩ := h.stack.allocSupp
  cases l with
  | nil => exact ⟨hstack, h.apart, h.nodup⟩
  | cons x l =>
      have hx := (List.nodup_cons.mp h.stack.nodup).1
      refine ⟨hstack, ?_, List.nodup_cons.mpr ⟨?_, h.nodup⟩⟩
      · intro s hs hm
        rcases List.mem_cons.mp hs with rfl | hs
        · exact hx hm
        · exact h.apart s hs (List.mem_cons_of_mem _ hm)
      · intro hm
        exact h.apart x hm List.mem_cons_self

theorem dealloc (h : p.Parts l used) {x : SuppPtr} (hx : x ∉ l) :
    (p.deallocSupp (some x)).Parts (x :: l) (used.erase x) := by
  refine ⟨h.stack.deallocSupp hx, ?_, h.nodup.erase x⟩
  intro s hs hm
  obtain ⟨hne, hs⟩ := h.nodup.mem_erase_iff.mp hs
  rcases List.mem_cons.mp hm with rfl | hm
  · exact hne rfl
  · exact h.apart s hs hm

end Parts

/-- One call, and what it adds to the history. -/
theorem Parts.call (h : p.Parts (stacked tr) (inUse tr)) (hs : p.call c = some p')
    (hx : Call.Proper ⟨p, c, p'⟩) :
    p'.Parts (stacked (tr ++ [⟨p, c, p'⟩])) (inUse (tr ++ [⟨p, c, p'⟩])) := by
  rw [stacked_snoc, inUse_snoc]
  cases c with
  | alloc =>
      obtain rfl := Option.some.inj hs
      have hout : Call.handedOut ⟨p, .alloc, p.allocSupp.2⟩ = (stacked tr).head? :=
        h.stack.allocSupp.1
      have htail : (stacked tr).diff (stacked tr).head?.toList = (stacked tr).tail := by
        cases stacked tr with
        | nil => rfl
        | cons s l => simp
      rw [hout, htail]
      exact h.alloc
  | dealloc supp =>
      obtain rfl := Option.some.inj hs
      cases supp with
      | none => exact h
      | some s =>
          have hs : s ∉ stacked tr := h.stack.contents_eq ▸ hx s rfl
          have herase : (inUse tr).diff [s] = (inUse tr).erase s := by
            rw [List.diff_cons, List.diff_nil]
          have hdealloc := h.dealloc hs
          rw [← herase] at hdealloc
          exact hdealloc

/-- What a call does to a pool that is a stack. -/
theorem Parts.serves (h : p.Parts (stacked tr) (inUse tr)) (hs : p.call c = some p') :
    Serves tr ⟨p, c, p'⟩ := by
  have hlatest : c = .alloc → Call.handedOut ⟨p, c, p'⟩ = (stacked tr).head? := by
    rintro rfl
    exact h.stack.allocSupp.1
  constructor
  case latest => exact hlatest
  case null_iff =>
    intro hc
    rw [hlatest hc, h.stack.contents_eq]
    exact List.head?_eq_none_iff
  case detached =>
    intro s hout
    cases c with
    | alloc =>
        obtain rfl := Option.some.inj hs
        exact allocSupp_detached hout
    | dealloc supp => cases hout
  case fresh =>
    intro s hout hm
    cases c with
    | alloc => exact h.apart s hm (List.mem_of_mem_head? ((hlatest rfl).symm.trans hout))
    | dealloc supp => cases hout
  case untouched =>
    intro s hm hret
    cases c with
    | alloc =>
        obtain rfl := Option.some.inj hs
        exact h.stack.alloc_links hm
    | dealloc supp =>
        obtain rfl := Option.some.inj hs
        cases supp with
        | none => exact ⟨rfl, rfl⟩
        | some x => exact h.stack.dealloc_links hm fun e => hret (congrArg some e.symm)

theorem pool_parts (h : Run call p₀ tr p) (h₀ : p₀.freeSuppTp = none)
    (htr : ∀ x ∈ tr, Call.Proper x) : p.Parts (stacked tr) (inUse tr) := by
  refine h.invariant (P := fun tr p => p.Parts (stacked tr) (inUse tr)) htr ?_ ?_
  · exact ⟨⟨h₀, .nil⟩, fun _ hs => absurd hs List.not_mem_nil, .nil⟩
  · intro tr p c p' h hs hx
    exact h.call hs hx

/-- The pool is the stack of what was deallocated, and structures in use are
neither in it nor changed. -/
theorem pool_stack (h : Run call p₀ tr p) (h₀ : p₀.freeSuppTp = none)
    (htr : ∀ x ∈ tr, Call.Proper x) :
    p.Linked (stacked tr) ∧ p.contents = stacked tr ∧ (∀ s ∈ inUse tr, s ∉ stacked tr) ∧
      ∀ a x b, tr = a ++ x :: b → Serves a x := by
  have hparts := pool_parts h h₀ htr
  refine ⟨hparts.stack.linked, hparts.stack.contents_eq, hparts.apart, ?_⟩
  rintro a x b rfl
  obtain ⟨hrun, hs, -⟩ := h.split
  exact (pool_parts hrun h₀ fun y hy => htr y (List.mem_append_left _ hy)).serves hs

/-- Calls on an empty pool, on one structure and on several, and one that is
given back after it was handed out. -/
def stackCalls : List SuppCall :=
  [.alloc, .dealloc (some 3), .dealloc none, .dealloc (some 5), .dealloc (some 7), .alloc, .alloc,
    .dealloc (some 7), .alloc]

theorem pool_stack_calls : ∃ tr p, Run call empty tr p ∧ tr.map Trace.Entry.event = stackCalls ∧
    tr.map Call.handedOut = [none, none, none, none, none, some 7, some 5, none, some 7] ∧
    p.Linked [3] ∧ inUse tr = [7, 5] ∧ ∀ a x b, tr = a ++ x :: b → Serves a x := by
  have hany : (Trace.exec call empty stackCalls).any (fun x =>
      x.1.all (fun y => decide (Call.Proper y)) ∧ stacked x.1 = [3] ∧ inUse x.1 = [7, 5] ∧
        x.1.map Call.handedOut = [none, none, none, none, none, some 7, some 5, none, some 7]) =
      true := by
    decide +kernel
  obtain ⟨tr, p, hrun, hev, h⟩ := Trace.run_of_any hany
  obtain ⟨hproper, hstack, huse, hout⟩ := of_decide_eq_true h
  obtain ⟨hlinked, -, -, hserves⟩ := pool_stack hrun rfl fun x hx =>
    of_decide_eq_true (List.all_eq_true.mp hproper x hx)
  exact ⟨tr, p, hrun, hev, hout, hstack ▸ hlinked, huse, hserves⟩

end

end Pool

end Pandos.Phase3
