/-
# `Pandos.Phase3.Pool` — `initSupp.c`

The free support structures form a stack, linked through `prev_supp` (towards
the bottom) and `next_supp` (towards the top) from `freeSupp_tp` on.

`Pool.IsStack p l` says that the pool `p` holds the list `l`, top first;
`alloc_supp` pops it and `dealloc_supp` pushes (`IsStack.allocSupp`,
`IsStack.deallocSupp`).
-/
import Pandos.Types

namespace Pandos.Phase3

/-- `&uproc_supp[i]` -/
abbrev SuppPtr := Fin (uprocMax + 1)

/-- `freeSupp_tp` and the links of the support structures. -/
structure Pool where
  freeSuppTp : Option SuppPtr
  nextSupp : SuppPtr → Option SuppPtr
  prevSupp : SuppPtr → Option SuppPtr

namespace Pool

/-- `supp->next_supp = n` -/
def setNext (p : Pool) (supp : SuppPtr) (n : Option SuppPtr) : Pool :=
  { p with nextSupp := Function.update p.nextSupp supp n }

/-- `supp->prev_supp = n` -/
def setPrev (p : Pool) (supp : SuppPtr) (n : Option SuppPtr) : Pool :=
  { p with prevSupp := Function.update p.prevSupp supp n }

def allocSupp (p : Pool) : Option SuppPtr × Pool :=
  match p.freeSuppTp with
  | none => (none, p)
  | some supp =>
      let p := match p.prevSupp supp with
        | some below => { p with freeSuppTp := some below }.setNext below none
        | none => { p with freeSuppTp := none }
      (some supp, (p.setPrev supp none).setNext supp none)

/-- `NULL` is left alone. -/
def deallocSupp (p : Pool) : Option SuppPtr → Pool
  | none => p
  | some supp =>
      match p.freeSuppTp with
      | none => ({ p with freeSuppTp := some supp }.setPrev supp none).setNext supp none
      | some top =>
          { ((p.setNext supp none).setPrev supp (some top)).setNext top (some supp) with
            freeSuppTp := some supp }

/-- Nothing is free, and no structure is linked. -/
def empty : Pool := ⟨none, fun _ => none, fun _ => none⟩

/-- The loop of `initSuppStack`; the last structure is not used. -/
def initSuppStack (p : Pool) : Pool :=
  (List.finRange uprocMax).foldl (fun p i => p.deallocSupp (some i.castSucc)) p

/-! ## Stacks -/

/-- From `s` down to the bottom the links hold the list; `above` stands on `s`. -/
def Down (p : Pool) : Option SuppPtr → Option SuppPtr → List SuppPtr → Prop
  | _, s, [] => s = none
  | above, s, x :: l => s = some x ∧ p.nextSupp x = above ∧ Down p (some x) (p.prevSupp x) l

structure IsStack (p : Pool) (l : List SuppPtr) : Prop where
  down : p.Down none p.freeSuppTp l
  nodup : l.Nodup

/-- Only the links of the list matter, and the one upwards from its top not even that. -/
theorem Down.congr {p q : Pool} {l : List SuppPtr} : ∀ {above s : Option SuppPtr},
    (∀ x ∈ l, q.nextSupp x = p.nextSupp x ∧ q.prevSupp x = p.prevSupp x) →
      p.Down above s l → q.Down above s l := by
  induction l with
  | nil => exact fun _ h => h
  | cons x l ih =>
      intro above s hlinks h
      obtain ⟨hs, hn, hrest⟩ := h
      obtain ⟨hnext, hprev⟩ := hlinks x List.mem_cons_self
      refine ⟨hs, hnext.trans hn, ?_⟩
      rw [hprev]
      exact ih (fun y hy => hlinks y (List.mem_cons_of_mem _ hy)) hrest

theorem empty_isStack : empty.IsStack [] := ⟨rfl, .nil⟩

namespace IsStack

variable {p : Pool} {l : List SuppPtr}

theorem freeSuppTp (h : p.IsStack l) : p.freeSuppTp = l.head? := by
  cases l with
  | nil => exact h.down
  | cons x l => exact h.down.1

/-- `alloc_supp` returns the top. -/
theorem allocSupp (h : p.IsStack l) : p.allocSupp.1 = l.head? ∧ p.allocSupp.2.IsStack l.tail := by
  have htop := h.freeSuppTp
  unfold Pool.allocSupp
  cases l with
  | nil =>
      rw [htop]
      exact ⟨rfl, h⟩
  | cons x l =>
      obtain ⟨hx, hl⟩ := List.nodup_cons.mp h.nodup
      obtain ⟨-, -, hdown⟩ := h.down
      have hne : ∀ y ∈ l, y ≠ x := fun y hy e => hx (e ▸ hy)
      rw [htop]
      refine ⟨rfl, ?_, hl⟩
      cases l with
      | nil =>
          have hprev : p.prevSupp x = none := hdown
          simp only [List.head?_cons, hprev]
          exact rfl
      | cons y l =>
          obtain ⟨hprev, -, hrest⟩ := hdown
          have hyx := hne y List.mem_cons_self
          have hy := (List.nodup_cons.mp hl).1
          simp only [List.head?_cons, hprev]
          refine ⟨rfl, ?_, ?_⟩
          · simp [setNext, setPrev, hyx]
          · have hlinks : ∀ z ∈ l, z ≠ y ∧ z ≠ x := fun z hz =>
              ⟨fun e => hy (e ▸ hz), hne z (List.mem_cons_of_mem _ hz)⟩
            have hcongr := Down.congr (q := Pool.mk (some y)
              (Function.update (Function.update p.nextSupp y none) x none)
              (Function.update p.prevSupp x none)) (fun z hz => by
                simp [(hlinks z hz).1, (hlinks z hz).2]) hrest
            simpa [setNext, setPrev, hyx] using hcongr

/-- `dealloc_supp` puts a structure on top. -/
theorem deallocSupp (h : p.IsStack l) {x : SuppPtr} (hx : x ∉ l) :
    (p.deallocSupp (some x)).IsStack (x :: l) := by
  have htop := h.freeSuppTp
  refine ⟨?_, List.nodup_cons.mpr ⟨hx, h.nodup⟩⟩
  unfold Pool.deallocSupp
  cases l with
  | nil =>
      rw [htop]
      simp [Down, setNext, setPrev]
  | cons y l =>
      obtain ⟨-, -, hrest⟩ := h.down
      have hxy : x ≠ y := fun e => hx (e ▸ List.mem_cons_self)
      have hy := (List.nodup_cons.mp h.nodup).1
      rw [htop]
      refine ⟨rfl, ?_, ?_⟩
      · simp [setNext, setPrev, hxy]
      · have hlinks : ∀ z ∈ l, z ≠ y ∧ z ≠ x := fun z hz =>
          ⟨fun e => hy (e ▸ hz), fun e => hx (e ▸ List.mem_cons_of_mem _ hz)⟩
        have hcongr := Down.congr (q := Pool.mk (some x)
          (Function.update (Function.update p.nextSupp x none) y (some x))
          (Function.update p.prevSupp x (some y))) (fun z hz => by
            simp [(hlinks z hz).1, (hlinks z hz).2]) hrest
        simpa [Down, setNext, setPrev, hxy, hxy.symm] using hcongr

end IsStack

/-- The structures `initSuppStack` pushes, the last one on top. -/
def initial : List SuppPtr := ((List.finRange uprocMax).map Fin.castSucc).reverse

theorem initSuppStack_isStack : empty.initSuppStack.IsStack initial := by
  have hpush : ∀ {is : List (Fin uprocMax)} {p : Pool} {l : List SuppPtr}, p.IsStack l →
      (is.map Fin.castSucc).Nodup → (∀ i ∈ is, i.castSucc ∉ l) →
        (is.foldl (fun p i => p.deallocSupp (some i.castSucc)) p).IsStack
          ((is.map Fin.castSucc).reverse ++ l) := by
    intro is
    induction is with
    | nil => exact fun h _ _ => h
    | cons i is ih =>
        intro p l h hn hl
        obtain ⟨hi, hn⟩ := List.nodup_cons.mp hn
        have hpushed := h.deallocSupp (hl i List.mem_cons_self)
        have := ih hpushed hn fun j hj hm => by
          rcases List.mem_cons.mp hm with he | hm
          · exact hi (he ▸ List.mem_map_of_mem hj)
          · exact hl j (List.mem_cons_of_mem _ hj) hm
        simpa using this
  have hn : ((List.finRange uprocMax).map Fin.castSucc).Nodup :=
    (List.nodup_finRange _).map (Fin.castSucc_injective _)
  simpa [initial, initSuppStack] using hpush empty_isStack hn fun _ _ => List.not_mem_nil

end Pool

end Pandos.Phase3
