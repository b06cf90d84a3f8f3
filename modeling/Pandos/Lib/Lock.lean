/-
# `Pandos.Lib.Lock` — a semaphore as a lock

A semaphore that starts at one and is only upped by those who have passed it
is a lock: at most one is inside, and the queue are those who wait.

Which ones are inside and which ones wait is given by two predicates on the
state of the program; `Locks` relates them to the semaphore, with one lemma for
each way they can change together.  One that is inside may vanish
(`Locks.vanish`), and then the lock is held by nobody for good.  As long as
that does not happen somebody is inside whenever the lock is not free
(`Held`).

The lock is handed over in the order of arrival (`InLine`).

Where those who wait may be dropped, and whoever is inside may be lost, the
value still says how many wait (`Guards`).
-/
import Pandos.Lib.Semaphore

namespace Semaphore

variable {α : Type}

structure Sem.Locks (s : Sem α) (inside waits : α → Prop) : Prop where
  unique : ∀ {x y}, inside x → inside y → x = y
  queued : ∀ x, x ∈ s.queue ↔ waits x
  nodup : s.queue.Nodup
  value_le : s.value ≤ 1
  free : s.value = 1 → ∀ x, ¬ inside x
  length : (s.queue.length : Int) = max 0 (-s.value)

/-- The lock is free, or somebody is inside. -/
def Sem.Held (s : Sem α) (inside : α → Prop) : Prop := s.value ≠ 1 → ∃ x, inside x

namespace Sem.Locks

variable {s : Sem α} {inside waits inside' waits' : α → Prop} {x : α}

theorem value_nonpos (h : s.Locks inside waits) (hx : inside x) : s.value ≤ 0 := by
  have hle := h.value_le
  have hne : s.value ≠ 1 := fun hv => h.free hv x hx
  omega

theorem queue_nil (h : s.Locks inside waits) (hv : s.value = 1) : s.queue = [] := by
  have hlen := h.length
  rw [hv] at hlen
  exact List.eq_nil_of_length_eq_zero (by omega)

theorem start : (⟨1, []⟩ : Sem α).Locks (fun _ => False) (fun _ => False) where
  unique := nofun
  queued := by simp
  nodup := .nil
  value_le := le_refl 1
  free _ _ h := h
  length := by simp

/-- The predicates may be replaced by equivalent ones, and fewer may be inside. -/
theorem vanish (h : s.Locks inside waits) (hi : ∀ y, inside' y → inside y)
    (hw : ∀ y, waits' y ↔ waits y) : s.Locks inside' waits' where
  unique hx hy := h.unique (hi _ hx) (hi _ hy)
  queued y := (h.queued y).trans (hw y).symm
  nodup := h.nodup
  value_le := h.value_le
  free hv y hy := h.free hv y (hi y hy)
  length := h.length

/-- `x` passes. -/
theorem pass (h : s.Locks inside waits) (hv : ¬ s.value - 1 < 0)
    (hi : ∀ y, inside' y ↔ inside y ∨ y = x) (hw : ∀ y, waits' y ↔ waits y) :
    (s.step (.down x)).Locks inside' waits' := by
  have hle := h.value_le
  have hv1 : s.value = 1 := by omega
  have hq := h.queue_nil hv1
  have hnobody := h.free hv1
  have honly : ∀ y, inside' y → y = x := fun y hy => ((hi y).mp hy).resolve_left (hnobody y)
  have hstep : s.step (.down x) = ⟨0, []⟩ := by
    simp [Sem.step, hv1, hq]
  rw [hstep]
  exact {
    unique := fun ha hb => (honly _ ha).trans (honly _ hb).symm
    queued := fun y => by
      have hy := h.queued y
      rw [hq] at hy
      exact hy.trans (hw y).symm
    nodup := .nil
    value_le := by simp
    free := by rintro ⟨⟩
    length := by simp }

/-- `x` has to wait. -/
theorem wait (h : s.Locks inside waits) (hv : s.value - 1 < 0) (hx : ¬ waits x)
    (hi : ∀ y, inside' y ↔ inside y) (hw : ∀ y, waits' y ↔ waits y ∨ y = x) :
    (s.step (.down x)).Locks inside' waits' := by
  have hlen := h.length
  have hnot : x ∉ s.queue := mt (h.queued x).mp hx
  have hstep : s.step (.down x) = ⟨s.value - 1, s.queue ++ [x]⟩ := by
    simp only [Sem.step, if_pos hv]
  rw [hstep]
  exact {
    unique := fun ha hb => h.unique ((hi _).mp ha) ((hi _).mp hb)
    queued := fun y => by
      rw [List.mem_append, List.mem_singleton, hw y, h.queued y]
    nodup := List.nodup_append'.mpr
      ⟨h.nodup, List.nodup_singleton x, List.disjoint_singleton.mpr hnot⟩
    value_le := by
      have hle := h.value_le
      dsimp only
      omega
    free := fun hv' => by
      dsimp only at hv'
      omega
    length := by
      rw [List.length_append, List.length_singleton]
      dsimp only
      omega }

/-- `x` leaves, and the first of the queue is inside. -/
theorem leave (h : s.Locks inside waits) (hx : inside x)
    (hi : ∀ y, inside' y ↔ s.queue.head? = some y)
    (hw : ∀ y, waits' y ↔ waits y ∧ s.queue.head? ≠ some y) :
    (s.step .up).Locks inside' waits' := by
  have hle := h.value_nonpos hx
  obtain ⟨value, queue⟩ := s
  obtain ⟨-, hqueued, hnodup, -, -, hlen⟩ := h
  dsimp only at hle hqueued hnodup hlen hi hw
  constructor
  case unique =>
    intro a b ha hb
    exact Option.some.inj (((hi a).mp ha).symm.trans ((hi b).mp hb))
  case queued =>
    intro y
    rw [hw y, ← hqueued y]
    cases queue with
    | nil => simp [Sem.step]
    | cons z l =>
        have hz := (List.nodup_cons.mp hnodup).1
        simp only [Sem.step, List.tail_cons, List.mem_cons, List.head?_cons, ne_eq,
          Option.some.injEq]
        constructor
        · intro hy
          refine ⟨.inr hy, ?_⟩
          rintro rfl
          exact hz hy
        · rintro ⟨hy | hy, hne⟩
          · exact absurd hy.symm hne
          · exact hy
  case nodup => exact hnodup.sublist (List.tail_sublist _)
  case value_le =>
    simp only [Sem.step]
    omega
  case free =>
    intro hv y hy
    have hhead := (hi y).mp hy
    cases queue with
    | nil => cases hhead
    | cons z l =>
        simp only [Sem.step] at hv
        simp only [List.length_cons] at hlen
        omega
  case length =>
    cases queue with
    | nil =>
        simp only [List.length_nil] at hlen
        simp only [Sem.step, List.tail_nil, List.length_nil]
        omega
    | cons z l =>
        simp only [List.length_cons] at hlen
        simp only [Sem.step, List.tail_cons]
        omega

/-- Everybody goes. -/
theorem clear (h : s.Locks inside waits) (hi : ∀ y, ¬ inside' y) (hw : ∀ y, ¬ waits' y) :
    (s.step (.drop fun _ => true)).Locks inside' waits' := by
  have hlen := h.length
  have hle := h.value_le
  have hall : s.queue.countP (fun _ => true) = s.queue.length := by simp
  constructor
  case unique => exact fun ha => absurd ha (hi _)
  case queued => simp [Sem.step, hw]
  case nodup => simp [Sem.step]
  case value_le =>
    simp only [Sem.step, hall]
    omega
  case free => exact fun _ => hi
  case length =>
    simp only [Sem.step, hall, Bool.not_true, List.filter_false, List.length_nil]
    omega

/-- A lock that is taken stays so when all those who wait go. -/
theorem clear_value (h : s.Locks inside waits) (hv : s.value ≠ 1) :
    (s.step (.drop fun _ => true)).value ≠ 1 := by
  have hle := h.value_le
  have hlen := h.length
  have hall : s.queue.countP (fun _ => true) = s.queue.length := by simp
  simp only [Sem.step, hall]
  omega

/-! ## Who holds the lock -/

theorem held_wait (hheld : s.Held inside) (hv : s.value - 1 < 0)
    (hi : ∀ y, inside' y ↔ inside y) : (s.step (.down x)).Held inside' := fun _ => by
  obtain ⟨y, hy⟩ := hheld (by omega)
  exact ⟨y, (hi y).mpr hy⟩

theorem held_leave (h : s.Locks inside waits) (hx : inside x)
    (hi : ∀ y, inside' y ↔ s.queue.head? = some y) : (s.step .up).Held inside' := by
  intro hv
  have hlen := h.length
  have hle := h.value_nonpos hx
  cases hq : s.queue with
  | nil =>
      simp only [Sem.step] at hv
      rw [hq] at hlen
      simp only [List.length_nil] at hlen
      omega
  | cons y l => exact ⟨y, (hi y).mpr (by rw [hq]; rfl)⟩

end Sem.Locks

/-! ## Order of arrival -/

/-- Those who have arrived are those who have got in and those who wait, in
this order. -/
def Sem.InLine (s : Sem α) (arrived entered : List α) : Prop := arrived = entered ++ s.queue

namespace Sem.InLine

variable {s : Sem α} {inside waits : α → Prop} {arrived entered : List α} {x : α}

theorem pass (h : s.InLine arrived entered) (hl : s.Locks inside waits) (hv : ¬ s.value - 1 < 0) :
    (s.step (.down x)).InLine (arrived ++ [x]) (entered ++ [x]) := by
  have hle := hl.value_le
  have hq := hl.queue_nil (by omega)
  simp only [InLine, Sem.step, if_neg hv, hq, List.append_nil] at h ⊢
  rw [h]

theorem wait (h : s.InLine arrived entered) (hv : s.value - 1 < 0) :
    (s.step (.down x)).InLine (arrived ++ [x]) entered := by
  simp only [InLine, Sem.step, if_pos hv] at h ⊢
  rw [h, List.append_assoc]

theorem leave (h : s.InLine arrived entered) :
    (s.step .up).InLine arrived (entered ++ s.queue.head?.toList) := by
  simp only [InLine, Sem.step] at h ⊢
  rw [h, List.append_assoc]
  cases s.queue with
  | nil | cons _ _ => rfl

end Sem.InLine

section

variable [DecidableEq α] {s : Sem α} {x : α}

/-- Who arrives later waits behind. -/
theorem Sem.idxOf_down (hx : x ∈ s.queue) (y : α) :
    (s.step (.down y)).queue.idxOf x = s.queue.idxOf x := by
  simp only [Sem.step]
  split
  · exact List.idxOf_append_of_mem hx
  · rfl

theorem Sem.idxOf_up (hx : x ∈ s.queue) (hne : s.queue.head? ≠ some x) :
    (s.step .up).queue.idxOf x + 1 = s.queue.idxOf x := by
  simp only [Sem.step]
  cases hq : s.queue with
  | nil => exact absurd hx (by simp [hq])
  | cons y l =>
      have hyx : y ≠ x := fun e => hne (by rw [hq, e]; rfl)
      rw [List.tail_cons, List.idxOf_cons_ne l hyx]

end

/-! ## A lock whose holder may be lost -/

/-- At most one is inside, nobody once a holder is `lost`, and the lock is taken
exactly then. -/
structure Sem.Guards (s : Sem α) (inside : α → Prop) (lost : Prop) : Prop where
  unique : ∀ {x y}, inside x → inside y → x = y
  alone : lost → ∀ x, ¬ inside x
  taken : (∃ x, inside x) ∨ lost → s.value = -s.queue.length
  free : ¬ ((∃ x, inside x) ∨ lost) → s = ⟨1, []⟩

namespace Sem.Guards

variable {s : Sem α} {inside inside' : α → Prop} {lost lost' : Prop} {x : α}

theorem start : (⟨1, []⟩ : Sem α).Guards (fun _ => False) False where
  unique := False.elim
  alone := False.elim
  taken h := by simp at h
  free _ := rfl

theorem congr (h : s.Guards inside lost) (hi : ∀ x, inside' x ↔ inside x) :
    s.Guards inside' lost := by
  rwa [show inside' = inside from funext fun x => propext (hi x)]

/-- Some of those who are inside are lost. -/
theorem lose (h : s.Guards inside lost) (hi : ∀ x, inside' x → inside x)
    (hlost : lost' ↔ lost ∨ ∃ x, inside x ∧ ¬ inside' x) : s.Guards inside' lost' := by
  have htaken : (∃ x, inside' x) ∨ lost' ↔ (∃ x, inside x) ∨ lost := by
    rw [hlost]
    constructor
    · rintro (⟨x, hx⟩ | hl | ⟨x, hx, -⟩)
      · exact .inl ⟨x, hi x hx⟩
      · exact .inr hl
      · exact .inl ⟨x, hx⟩
    · rintro (⟨x, hx⟩ | hl)
      · by_cases hx' : inside' x
        · exact .inl ⟨x, hx'⟩
        · exact .inr (.inr ⟨x, hx, hx'⟩)
      · exact .inr (.inl hl)
  refine ⟨fun hx hy => h.unique (hi _ hx) (hi _ hy), fun hl x hx => ?_, fun ht => ?_, fun ht => ?_⟩
  · rcases hlost.mp hl with hl | ⟨y, hy, hy'⟩
    · exact h.alone hl x (hi x hx)
    · exact hy' (h.unique hy (hi x hx) ▸ hx)
  · exact h.taken (htaken.mp ht)
  · exact h.free (mt htaken.mpr ht)

/-- `x` passes if the lock is free, and waits otherwise. -/
theorem down (h : s.Guards inside lost)
    (hi : ∀ y, inside' y ↔ inside y ∨ ¬ s.value - 1 < 0 ∧ y = x) :
    (s.step (.down x)).Guards inside' lost := by
  by_cases ht : (∃ y, inside y) ∨ lost
  · have hv := h.taken ht
    have hneg : s.value - 1 < 0 := by omega
    have hsame : ∀ y, inside' y ↔ inside y := fun y =>
      (hi y).trans (or_iff_left fun hy => hy.1 hneg)
    refine ⟨fun hy hz => h.unique ((hsame _).mp hy) ((hsame _).mp hz), fun hl y hy => ?_,
      fun _ => ?_, fun ht' => ?_⟩
    · exact h.alone hl y ((hsame y).mp hy)
    · simp only [Sem.step, if_pos hneg, List.length_append, List.length_singleton]
      omega
    · exact absurd (ht.imp_left (Exists.imp fun y => (hsame y).mpr)) ht'
  · have hs := h.free ht
    have hpos : ¬ s.value - 1 < 0 := by
      rw [hs]
      exact lt_irrefl 0
    have hself : ∀ y, inside' y ↔ y = x := by
      intro y
      rw [hi y, or_iff_right fun hy => ht (.inl ⟨y, hy⟩)]
      exact and_iff_right hpos
    refine ⟨fun hy hz => ((hself _).mp hy).trans ((hself _).mp hz).symm, fun hl => ?_,
      fun _ => ?_, fun ht' => ?_⟩
    · exact absurd (.inr hl) ht
    · rw [hs]
      rfl
    · exact absurd (.inl ⟨x, (hself x).mpr rfl⟩) ht'

/-- `x` leaves, and the first of the queue is inside. -/
theorem up (h : s.Guards inside lost) (hx : inside x)
    (hi : ∀ y, inside' y ↔ s.queue.head? = some y) : (s.step .up).Guards inside' lost := by
  have hv := h.taken (.inl ⟨x, hx⟩)
  have hnl : ¬ lost := fun hl => h.alone hl x hx
  refine ⟨fun hy hz => ?_, fun hl => absurd hl hnl, fun ht => ?_, fun ht => ?_⟩
  · exact Option.some.inj (((hi _).mp hy).symm.trans ((hi _).mp hz))
  · obtain ⟨y, hy⟩ := ht.resolve_right hnl
    obtain ⟨l, hl⟩ := List.head?_eq_some_iff.mp ((hi y).mp hy)
    rw [hl, List.length_cons] at hv
    simp only [Sem.step, hl, List.tail_cons]
    omega
  · cases hq : s.queue with
    | nil =>
        rw [hq, List.length_nil] at hv
        simp only [Sem.step, hq, hv]
        rfl
    | cons y l => exact absurd (.inl ⟨y, (hi y).mpr (by rw [hq]; rfl)⟩) ht

theorem drop (h : s.Guards inside lost) (dead : α → Bool) :
    (s.step (.drop dead)).Guards inside lost := by
  refine ⟨h.unique, h.alone, fun ht => ?_, fun ht => ?_⟩
  · have hv := h.taken ht
    have hlen := countP_add_length_filter dead s.queue
    simp only [Sem.step]
    omega
  · rw [h.free ht]
    rfl

end Sem.Guards

end Semaphore
