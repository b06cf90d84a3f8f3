/-
# `Pandos.UserMemory` — which memory a service touches

The length a U-proc passes to `WRITEPRINTER` or `WRITETERMINAL` is checked,
and not looked at again: the loop goes on to the first `EOS` or error
(`mem_touched_loop`).  The check itself is made with the sum of address and
length, which may wrap around.  `READTERMINAL` has no length at all; how far
it writes is up to what is typed (`mem_written_readLoop`).

So the services stay inside what was checked for some inputs only, and
`contained_iff` says for which.
-/
import Pandos.Output

namespace Pandos

/-! ## Accesses -/

/-- The address of an access through `virtAddr`. -/
def ServiceOp.address : ServiceOp → Option Word
  | .read a | .write a => some a
  | .passeren _ | .verhogen _ | .io _ _ => none

def ServiceOp.written : ServiceOp → Option Word
  | .write a => some a
  | .read _ | .passeren _ | .verhogen _ | .io _ _ => none

def touched (ops : List ServiceOp) : List Word := ops.filterMap ServiceOp.address

def written (ops : List ServiceOp) : List Word := ops.filterMap ServiceOp.written

@[simp] theorem touched_append (ops ops' : List ServiceOp) :
    touched (ops ++ ops') = touched ops ++ touched ops' := List.filterMap_append

@[simp] theorem written_append (ops ops' : List ServiceOp) :
    written (ops ++ ops') = written ops ++ written ops' := List.filterMap_append

section

variable {dev : OutputDevice} {devNo a x retValue : Word} {mem : Word → Byte}
  {statuses : List Word}

/-! ## Output -/

/-- The `i`-th character is put out, and answered without an error. -/
def OutputDevice.Passes (dev : OutputDevice) (statuses : List Word) (mem : Word → Byte) (a : Word)
    (i : Nat) : Prop :=
  mem (charAddr a i) ≠ eos ∧ statuses[i]?.any (fun st => !dev.fails st) = true

instance (i : Nat) : Decidable (dev.Passes statuses mem a i) := inferInstanceAs (Decidable (_ ∧ _))

theorem passes_zero {st : Word} (h : mem a ≠ eos) (hst : dev.fails st = false) :
    dev.Passes (st :: statuses) mem a 0 := by
  refine ⟨?_, ?_⟩
  · rwa [charAddr_zero]
  · simp [hst]

theorem passes_succ {st : Word} {i : Nat} :
    dev.Passes (st :: statuses) mem a (i + 1) ↔ dev.Passes statuses mem (a + 1) i := by
  rw [OutputDevice.Passes, OutputDevice.Passes, charAddr_succ, List.getElem?_cons_succ]

theorem touched_puts (dev : OutputDevice) (devNo a : Word) (c : Byte) :
    ∀ x, x ∈ touched (dev.puts devNo a c) ↔ x = a := by
  intro x
  unfold OutputDevice.puts
  split
  · simp [touched, ServiceOp.address]
  · simp [touched, ServiceOp.address]

/-- The loop reaches a character if all before it pass. -/
theorem mem_touched_loop : ∀ (statuses : List Word) (a retValue : Word),
    x ∈ touched (dev.loop devNo statuses mem a retValue).ops ↔
      ∃ j, x = charAddr a j ∧ ∀ i < j, dev.Passes statuses mem a i := by
  intro statuses
  -- only the first character is reached, if it does not pass
  have hone : ∀ {statuses : List Word} {a : Word}, ¬ dev.Passes statuses mem a 0 →
      (x = a ↔ ∃ j, x = charAddr a j ∧ ∀ i < j, dev.Passes statuses mem a i) := by
    intro statuses a hstop
    constructor
    · intro hx
      exact ⟨0, by rw [charAddr_zero, hx], fun i hi => absurd hi (Nat.not_lt_zero i)⟩
    · rintro ⟨j, rfl, hj⟩
      cases j with
      | zero => exact charAddr_zero a
      | succ j => exact absurd (hj 0 (Nat.succ_pos j)) hstop
  induction statuses with
  | nil =>
      intro a retValue
      rw [← hone fun h => absurd h.2 (by simp)]
      exact touched_puts dev devNo a (mem a) x
  | cons st rest ih =>
      intro a retValue
      rcases eq_or_ne (mem a) eos with h | h
      · rw [loop_eos h, ← hone fun hp => hp.1 (by rw [charAddr_zero, h])]
        simp [touched, ServiceOp.address]
      · cases hst : dev.fails st with
        | true =>
            rw [loop_fails h hst, ← hone fun hp => by simp [OutputDevice.Passes, hst] at hp]
            simp only [touched_append, List.mem_append, touched_puts]
            simp [touched, ServiceOp.address]
        | false =>
            rw [loop_passes h hst, Progress.after]
            simp only [touched_append, List.mem_append, touched_puts, ih]
            constructor
            · rintro (hx | ⟨j, hx, hj⟩)
              · exact ⟨0, by rw [charAddr_zero, hx], fun i hi => absurd hi (Nat.not_lt_zero i)⟩
              · refine ⟨j + 1, by rw [charAddr_succ, hx], fun i hi => ?_⟩
                cases i with
                | zero => exact passes_zero h hst
                | succ i => exact passes_succ.mpr (hj i (Nat.lt_of_succ_lt_succ hi))
            · rintro ⟨j, hx, hj⟩
              cases j with
              | zero => exact .inl (by rw [hx, charAddr_zero])
              | succ j =>
                  refine .inr ⟨j, by rw [hx, charAddr_succ], fun i hi => ?_⟩
                  exact passes_succ.mp (hj (i + 1) (Nat.succ_lt_succ hi))

/-- As many characters are put out as pass, and perhaps one more. -/
theorem chars_loop_le : ∀ (statuses : List Word) {a retValue : Word} {n : Nat},
    (∃ i < n, ¬ dev.Passes statuses mem a i) →
      ((dev.loop devNo statuses mem a retValue).ops.filterMap ServiceOp.char).length ≤ n := by
  intro statuses
  have hputs : ∀ a c, ((dev.puts devNo a c).filterMap ServiceOp.char).length ≤ 1 := by
    intro a c
    unfold OutputDevice.puts
    split
    · exact Nat.zero_le 1
    · simp only [List.filterMap_cons, List.filterMap_nil, ServiceOp.char]
      cases (dev.command c).char with
      | none => exact Nat.zero_le 1
      | some _ => exact le_refl 1
  induction statuses with
  | nil =>
      rintro a retValue n ⟨i, hi, -⟩
      exact Nat.le_trans (hputs a (mem a)) (by omega)
  | cons st rest ih =>
      rintro a retValue n ⟨i, hi, hstop⟩
      rcases eq_or_ne (mem a) eos with h | h
      · rw [loop_eos h]
        exact Nat.zero_le n
      · have hle := hputs a (mem a)
        cases hst : dev.fails st with
        | true =>
            rw [loop_fails h hst, List.append_assoc, List.filterMap_append, List.length_append]
            have hnone : (List.filterMap ServiceOp.char ([.write a] ++ [.read a])).length = 0 := rfl
            omega
        | false =>
            rw [loop_passes h hst, Progress.after, List.filterMap_append, List.length_append]
            cases i with
            | zero => exact absurd (passes_zero h hst) hstop
            | succ i =>
                have hrest := @ih (a + 1) (retValue + 1) (n - 1)
                  ⟨i, by omega, fun hp => hstop (passes_succ.mpr hp)⟩
                omega

/-! ## Input -/

/-- The answer `st` does not end the loop of `read_From_Terminal`. -/
def continues (st : Word) : Bool := goesOn ((st >>> 8).setWidth 8) st

theorem readLoop_stop {rcvd : Byte} {status : Word} (h : goesOn rcvd status = false) :
    readLoop devNo statuses rcvd status mem a retValue = ⟨mem, retValue, [], true⟩ := by
  have h : ¬ goesOn rcvd status = true := by simp [h]
  cases statuses with
  | nil | cons _ _ => simp only [readLoop, if_neg h]

/-- The loop fills as many bytes as answers it gets, up to the first that ends it. -/
theorem mem_written_readLoop : ∀ (statuses : List Word) {rcvd : Byte} {status a retValue : Word}
    {mem : Word → Byte}, goesOn rcvd status = true →
      (x ∈ written (readLoop devNo statuses rcvd status mem a retValue).ops ↔
        ∃ j < statuses.length, x = charAddr a j ∧ ∀ st ∈ statuses.take j, continues st = true) := by
  intro statuses
  induction statuses with
  | nil =>
      intro rcvd status a retValue mem h
      simp [readLoop, h, written, ServiceOp.written]
  | cons st rest ih =>
      intro rcvd status a retValue mem h
      have hchar : Function.update mem a ((st >>> 8).setWidth 8) a = (st >>> 8).setWidth 8 :=
        Function.update_self ..
      simp only [readLoop, if_pos h, hchar]
      cases hst : continues st with
      | true =>
          have hok : ¬ (st &&& termStatMask ≠ recvd ∧ st &&& termStatMask ≠ ready) := by
            rintro ⟨hrecvd, hready⟩
            have hcond := of_decide_eq_true hst
            rcases hcond.2 with h | h
            · exact hready h
            · exact hrecvd h
          rw [if_neg hok, Progress.after, written_append, List.mem_append, ih hst]
          constructor
          · rintro (hx | ⟨j, hj, hx, hall⟩)
            · obtain rfl : x = a := by simpa [written, ServiceOp.written, eq_comm] using hx
              exact ⟨0, Nat.succ_pos _, (charAddr_zero x).symm, by rintro _ ⟨⟩⟩
            · refine ⟨j + 1, Nat.succ_lt_succ hj, by rw [charAddr_succ, hx], ?_⟩
              rw [List.take_succ_cons, List.forall_mem_cons]
              exact ⟨hst, hall⟩
          · rintro ⟨j, hj, hx, hall⟩
            cases j with
            | zero =>
                rw [charAddr_zero] at hx
                exact .inl (by simp [written, ServiceOp.written, hx])
            | succ j =>
                rw [List.take_succ_cons, List.forall_mem_cons] at hall
                exact .inr ⟨j, Nat.lt_of_succ_lt_succ hj, by rw [hx, charAddr_succ], hall.2⟩
      | false =>
          have hstop : goesOn ((st >>> 8).setWidth 8) st = false := hst
          simp only [readLoop_stop hstop, Progress.after]
          have hright : (∃ j < (st :: rest).length, x = charAddr a j ∧
              ∀ st' ∈ (st :: rest).take j, continues st' = true) ↔ x = a := by
            constructor
            · rintro ⟨j, -, hx, hall⟩
              cases j with
              | zero => rw [hx, charAddr_zero]
              | succ j =>
                  rw [List.take_succ_cons, List.forall_mem_cons, hst] at hall
                  cases hall.1
            · rintro rfl
              exact ⟨0, Nat.succ_pos _, (charAddr_zero x).symm, by rintro _ ⟨⟩⟩
          rw [hright]
          split
          · simp [written, ServiceOp.written, eq_comm]
          · simp [written, ServiceOp.written, eq_comm]

/-! ## The calls -/

theorem touched_finish (r : Progress) (m : Mutex) (excState : State) :
    touched (r.finish m excState).ops = touched r.ops := by
  unfold Progress.finish
  dsimp only
  split
  · exact (touched_append ..).trans (List.append_nil _)
  · rfl

theorem written_finish (r : Progress) (m : Mutex) (excState : State) :
    written (r.finish m excState).ops = written r.ops := by
  unfold Progress.finish
  dsimp only
  split
  · exact (written_append ..).trans (List.append_nil _)
  · rfl

theorem chars_finish (r : Progress) (m : Mutex) (excState : State) :
    (r.finish m excState).ops.filterMap ServiceOp.char = r.ops.filterMap ServiceOp.char := by
  unfold Progress.finish
  dsimp only
  split
  · exact List.filterMap_append.trans (List.append_nil _)
  · rfl

/-- What is accepted lies above the start of the logical address space, and the
sum that is compared does not. -/
theorem badString_eq_false {virtAddr strlen : Word} : badString virtAddr strlen = false ↔
    1 ≤ strlen.toNat ∧ strlen.toNat ≤ 128 ∧ uprocStartAddr.toNat ≤ virtAddr.toNat ∧
      (virtAddr.toNat + strlen.toNat) % 2 ^ 32 < userStackTop.toNat := by
  have hlt := strlen.isLt
  have hsum : (virtAddr + strlen).toNat = (virtAddr.toNat + strlen.toNat) % 2 ^ 32 :=
    BitVec.toNat_add ..
  have hint := BitVec.toInt_eq_toNat_cond strlen
  simp only [badString, decide_eq_false_iff_not, not_or, BitVec.lt_def, BitVec.le_def, hsum]
  split at hint
  · omega
  · omega

/-- The call is refused, or stays within the `strlen` bytes at `virtAddr`,
which are the caller's. -/
structure Contained (virtAddr strlen : Word) (ops : List ServiceOp) : Prop where
  above : uprocStartAddr.toNat ≤ virtAddr.toNat
  below : virtAddr.toNat + strlen.toNat ≤ userStackTop.toNat
  short : strlen.toNat ≤ 128
  characters : (ops.filterMap ServiceOp.char).length ≤ strlen.toNat
  accesses : ∀ x ∈ touched ops,
    virtAddr.toNat ≤ x.toNat ∧ x.toNat < virtAddr.toNat + strlen.toNat

theorem charAddr_toNat {j : Nat} (h : a.toNat + j < 2 ^ 32) :
    (charAddr a j).toNat = a.toNat + j := by
  rw [charAddr, BitVec.toNat_add, BitVec.toNat_ofNat, Nat.add_mod_mod, Nat.mod_eq_of_lt h]

theorem contained_writeString {supp : Support} :
    (writeString dev supp mem statuses = .terminates ∨
      Contained (supp.supExceptState generalExcept).regA1 (supp.supExceptState generalExcept).regA2
        (writeString dev supp mem statuses).ops) ↔
      badString (supp.supExceptState generalExcept).regA1
        (supp.supExceptState generalExcept).regA2 = true ∨
      (supp.supExceptState generalExcept).regA1.toNat +
          (supp.supExceptState generalExcept).regA2.toNat < 2 ^ 32 ∧
        ∃ i < (supp.supExceptState generalExcept).regA2.toNat,
          ¬ dev.Passes statuses mem (supp.supExceptState generalExcept).regA1 i := by
  generalize hv : (supp.supExceptState generalExcept).regA1 = virtAddr
  generalize hl : (supp.supExceptState generalExcept).regA2 = strlen
  cases hbad : badString virtAddr strlen with
  | true =>
      refine iff_of_true (.inl ?_) (.inl rfl)
      simp only [writeString, hv, hl, hbad, if_true]
  | false =>
      obtain ⟨hpos, hshort, habove, hsum⟩ := badString_eq_false.mp hbad
      have hres : writeString dev supp mem statuses =
          (dev.loop (supp.supAsid - 1) statuses mem virtAddr 0).finish (dev.mutex supp.supAsid)
            (supp.supExceptState generalExcept) := by
        simp only [writeString, hv, hl, hbad, Bool.false_eq_true, if_false]
      rw [hres, or_iff_right (Progress.finish_ne_terminates _ _ _),
        or_iff_right Bool.false_ne_true]
      constructor
      · intro h
        have hbelow := h.below
        have htop : userStackTop.toNat < 2 ^ 32 := by decide
        refine ⟨by omega, ?_⟩
        by_contra hall
        -- then the loop reaches the byte behind the string
        have hmem : charAddr virtAddr strlen.toNat ∈
            touched (dev.loop (supp.supAsid - 1) statuses mem virtAddr 0).ops := by
          refine (mem_touched_loop statuses virtAddr 0).mpr ⟨strlen.toNat, rfl, fun i hi => ?_⟩
          exact not_not.mp fun hp => hall ⟨i, hi, hp⟩
        obtain ⟨-, hlt⟩ := h.accesses _ (touched_finish .. ▸ hmem)
        rw [charAddr_toNat (by omega)] at hlt
        omega
      · rintro ⟨hwrap, hstop⟩
        rw [Nat.mod_eq_of_lt hwrap] at hsum
        constructor
        case above => exact habove
        case below => exact hsum.le
        case short => exact hshort
        case characters =>
          rw [chars_finish]
          exact chars_loop_le statuses hstop
        case accesses =>
          intro x hx
          rw [touched_finish] at hx
          obtain ⟨j, rfl, hj⟩ := (mem_touched_loop statuses virtAddr 0).mp hx
          obtain ⟨i, hi, hnot⟩ := hstop
          have hji : j ≤ i := Nat.le_of_not_lt fun hij => hnot (hj i hij)
          rw [charAddr_toNat (by omega)]
          omega

theorem contained_readFromTerminal {supp : Support} :
    (∀ x ∈ written (readFromTerminal supp mem statuses).ops,
      uprocStartAddr ≤ x ∧ x < userStackTop) ↔
      (supp.supExceptState generalExcept).regA1 < uprocStartAddr ∨
        ∀ j < statuses.length, (∀ st ∈ statuses.take j, continues st = true) →
          (supp.supExceptState generalExcept).regA1.toNat + j < userStackTop.toNat := by
  generalize hv : (supp.supExceptState generalExcept).regA1 = virtAddr
  rcases Nat.lt_or_ge virtAddr.toNat uprocStartAddr.toNat with hlow' | hlow'
  · have hlow : virtAddr < uprocStartAddr := hlow'
    have hres : readFromTerminal supp mem statuses = .terminates := by
      simp only [readFromTerminal, hv, if_pos hlow]
    rw [hres]
    exact iff_of_true (fun x hx => absurd hx List.not_mem_nil) (.inl hlow)
  · have hlow : ¬ virtAddr < uprocStartAddr := Nat.not_lt.mpr hlow'
    have hres : readFromTerminal supp mem statuses =
        (readLoop (supp.supAsid - 1) statuses 48 ready mem virtAddr 0).finish
          (.termRead supp.supAsid) (supp.supExceptState generalExcept) := by
      simp only [readFromTerminal, hv, if_neg hlow]
    have hfills : ∀ x, x ∈ written (readFromTerminal supp mem statuses).ops ↔
        ∃ j < statuses.length, x = charAddr virtAddr j ∧
          ∀ st ∈ statuses.take j, continues st = true := fun x => by
      rw [hres, written_finish]
      exact mem_written_readLoop statuses (by decide)
    have htop : userStackTop.toNat < 2 ^ 32 := by decide
    simp only [hfills, or_iff_right hlow]
    constructor
    · intro h j
      induction j with
      | zero =>
          intro hj hall
          exact (h _ ⟨0, hj, (charAddr_zero virtAddr).symm, hall⟩).2
      | succ j ih =>
          intro hj hall
          have hprev := ih (by omega) fun st hst =>
            hall st (List.take_subset_take_left _ (Nat.le_succ j) hst)
          have hlt : (charAddr virtAddr (j + 1)).toNat < userStackTop.toNat :=
            (h _ ⟨j + 1, hj, rfl, hall⟩).2
          rwa [charAddr_toNat (by omega)] at hlt
    · rintro h x ⟨j, hj, rfl, hall⟩
      have hlt := h j hj hall
      have hval : (charAddr virtAddr j).toNat = virtAddr.toNat + j := charAddr_toNat (by omega)
      refine ⟨?_, ?_⟩
      · show uprocStartAddr.toNat ≤ _
        omega
      · show _ < userStackTop.toNat
        omega

end

end Pandos
