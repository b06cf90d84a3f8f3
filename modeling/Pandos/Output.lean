/-
# `Pandos.Output` — what `WRITEPRINTER` and `WRITETERMINAL` put out

A string is put out up to its `EOS`, or up to the first character whose status
is an error; `v0` says which, and the mutex of the device is held in between
(`loop_string`).  To end the loop after an error, an `EOS` is stored in the
place of the character, and that is not taken back: the string is unchanged
if and only if there is no error (`printed_iff`).
-/
import Pandos.Services

namespace Pandos

/-! ## Strings -/

/-- The string `cs` with its `EOS` lies at an address. -/
def StringAt (mem : Word → Byte) : Word → List Byte → Prop
  | a, [] => mem a = eos
  | a, c :: cs => mem a = c ∧ c ≠ eos ∧ StringAt mem (a + 1) cs

instance StringAt.decidable (mem : Word → Byte) : ∀ a cs, Decidable (StringAt mem a cs)
  | a, [] => inferInstanceAs (Decidable (mem a = eos))
  | a, c :: cs =>
      have := StringAt.decidable mem (a + 1) cs
      inferInstanceAs (Decidable (mem a = c ∧ c ≠ eos ∧ StringAt mem (a + 1) cs))

/-- The address of the `i`-th character. -/
def charAddr (a : Word) (i : Nat) : Word := a + BitVec.ofNat 32 i

@[simp] theorem charAddr_zero (a : Word) : charAddr a 0 = a := BitVec.add_zero a

theorem charAddr_succ (a : Word) (i : Nat) : charAddr a (i + 1) = charAddr (a + 1) i := by
  rw [charAddr, charAddr, BitVec.ofNat_add, BitVec.add_assoc, BitVec.add_comm (1 : Word)]
  rfl

section

variable {mem : Word → Byte} {a : Word} {cs : List Byte}

theorem StringAt.get (h : StringAt mem a cs) {i : Nat} (hi : i < cs.length) :
    mem (charAddr a i) = cs[i] ∧ cs[i] ≠ eos := by
  induction cs generalizing a i with
  | nil => exact absurd hi (Nat.not_lt_zero i)
  | cons c cs ih =>
      obtain ⟨hc, hne, hrest⟩ := h
      cases i with
      | zero =>
          rw [charAddr_zero]
          exact ⟨hc, hne⟩
      | succ i =>
          rw [charAddr_succ]
          exact ih hrest (Nat.lt_of_succ_lt_succ hi)

/-! ## Operations -/

/-- The character an operation puts out. -/
def ServiceOp.char : ServiceOp → Option Byte
  | .io _ c => c.char
  | .passeren _ | .verhogen _ | .read _ | .write _ => none

def ServiceOp.isMutex : ServiceOp → Bool
  | .passeren _ | .verhogen _ => true
  | .io _ _ | .read _ | .write _ => false

/-- The device gets the characters as they are. -/
def OutputDevice.Faithful (dev : OutputDevice) : Prop := ∀ c, (dev.command c).char = some c

instance (dev : OutputDevice) : Decidable dev.Faithful := inferInstanceAs (Decidable (∀ _, _))

theorem printer_faithful : printer.Faithful := by decide +kernel

theorem terminal_faithful : terminal.Faithful := by decide +kernel

/-! ## The loop -/

variable {dev : OutputDevice} {devNo retValue : Word} {statuses : List Word}

theorem loop_eos (h : mem a = eos) :
    dev.loop devNo statuses mem a retValue = ⟨mem, retValue, [.read a], true⟩ := by
  cases statuses with
  | nil | cons _ _ => simp [OutputDevice.loop, OutputDevice.puts, h]

theorem puts_of_ne {c : Byte} (hc : c ≠ eos) :
    dev.puts devNo a c = [.read a, .read a, .io devNo (dev.command c)] := if_neg hc

theorem puts_char {c : Byte} (hdev : dev.Faithful) (hc : c ≠ eos) :
    (dev.puts devNo a c).filterMap ServiceOp.char = [c] := by
  simp only [puts_of_ne hc, List.filterMap_cons, List.filterMap_nil, ServiceOp.char, hdev c]

theorem puts_mutex (dev : OutputDevice) (devNo a : Word) (c : Byte) :
    (dev.puts devNo a c).filter ServiceOp.isMutex = [] := by
  unfold OutputDevice.puts
  split
  · rfl
  · rfl

theorem loop_fails {st : Word} (h : mem a ≠ eos) (hst : dev.fails st = true) :
    dev.loop devNo (st :: statuses) mem a retValue =
      ⟨Function.update mem a eos, -st,
        dev.puts devNo a (mem a) ++ [.write a] ++ [.read a], true⟩ := by
  have hself : Function.update mem a eos a = eos := Function.update_self ..
  simp only [OutputDevice.loop, if_neg h, if_pos hst, loop_eos hself, Progress.after]

theorem loop_passes {st : Word} (h : mem a ≠ eos) (hst : dev.fails st = false) :
    dev.loop devNo (st :: statuses) mem a retValue =
      (dev.loop devNo statuses mem (a + 1) (retValue + 1)).after (dev.puts devNo a (mem a)) := by
  have hst : ¬ dev.fails st = true := by simp [hst]
  simp only [OutputDevice.loop, if_neg h, if_neg hst]

/-- The answers to the characters of `cs`. -/
def answers (cs : List Byte) (statuses : List Word) : List Word := statuses.take cs.length

/-- They are enough for the loop to end. -/
def Enough (dev : OutputDevice) (cs : List Byte) (statuses : List Word) : Prop :=
  cs.length ≤ statuses.length ∨ ∃ st ∈ answers cs statuses, dev.fails st = true

/-- What the loop does with a string. -/
structure Puts (dev : OutputDevice) (mem : Word → Byte) (a retValue : Word) (cs : List Byte)
    (sts : List Word) (r : Progress) : Prop where
  ended : r.ended = true
  characters : r.ops.filterMap ServiceOp.char = cs.take (sts.findIdx dev.fails + 1)
  retValue : r.retValue = match sts.find? dev.fails with
    | none => retValue + BitVec.ofNat 32 cs.length
    | some st => -st
  mutex : r.ops.filter ServiceOp.isMutex = []
  mem : r.mem = match sts.findIdx? dev.fails with
    | none => mem
    | some i => Function.update mem (charAddr a i) eos

/-- A character that is put out, with an answer. -/
theorem Puts.cons {c : Byte} {st : Word} {sts : List Word} {r : Progress} (hdev : dev.Faithful)
    (hc : c ≠ eos) (hst : dev.fails st = false)
    (h : Puts dev mem (a + 1) (retValue + 1) cs sts r) :
    Puts dev mem a retValue (c :: cs) (st :: sts) (r.after (dev.puts devNo a c)) where
  ended := h.ended
  characters := by
    rw [Progress.after, List.filterMap_append, h.characters, puts_char hdev hc,
      List.findIdx_cons, hst]
    rfl
  retValue := by
    rw [Progress.after, h.retValue, List.find?_cons_of_neg (by simp [hst])]
    cases sts.find? dev.fails with
    | none =>
        show retValue + 1 + BitVec.ofNat 32 cs.length = retValue + BitVec.ofNat 32 (cs.length + 1)
        rw [BitVec.ofNat_add, BitVec.add_assoc, BitVec.add_comm (1 : Word)]
        rfl
    | some st => rfl
  mutex := by
    rw [Progress.after, List.filter_append, puts_mutex, h.mutex]
    rfl
  mem := by
    rw [Progress.after, h.mem, List.findIdx?_cons, hst]
    cases sts.findIdx? dev.fails with
    | none => rfl
    | some i => exact congrArg (Function.update mem · eos) (charAddr_succ a i).symm

theorem loop_string (devNo retValue : Word) (hdev : dev.Faithful) (h : StringAt mem a cs)
    (he : Enough dev cs statuses) :
    Puts dev mem a retValue cs (answers cs statuses) (dev.loop devNo statuses mem a retValue) := by
  induction cs generalizing a statuses retValue with
  | nil =>
      rw [loop_eos h]
      exact ⟨rfl, rfl, (BitVec.add_zero retValue).symm, rfl, rfl⟩
  | cons c cs ih =>
      obtain ⟨rfl, hne, hrest⟩ := h
      cases statuses with
      | nil =>
          rcases he with hlen | ⟨st, hst, -⟩
          · exact absurd hlen (by simp)
          · exact nomatch hst
      | cons st rest =>
          have hanswers : answers (mem a :: cs) (st :: rest) = st :: answers cs rest := rfl
          rw [hanswers]
          cases hst : dev.fails st with
          | true =>
              rw [loop_fails hne hst]
              refine ⟨rfl, ?_, ?_, ?_, ?_⟩
              · rw [List.filterMap_append, List.filterMap_append, puts_char hdev hne,
                  List.findIdx_cons, hst]
                rfl
              · rw [List.find?_cons_of_pos hst]
              · rw [List.filter_append, List.filter_append, puts_mutex]
                rfl
              · rw [List.findIdx?_cons, hst]
                exact congrArg (Function.update mem · eos) (charAddr_zero a).symm
          | false =>
              rw [loop_passes hne hst]
              refine .cons hdev hne hst (ih _ hrest ?_)
              rcases he with hlen | ⟨st', hmem, hfails⟩
              · exact .inl (Nat.le_of_succ_le_succ hlen)
              · rw [hanswers, List.mem_cons] at hmem
                rcases hmem with rfl | hmem
                · exact absurd hfails (by simp [hst])
                · exact .inr ⟨st', hmem, hfails⟩

/-! ## The calls -/

/-- What a call that prints the string `cs` ought to have done, with the
answers `sts` to its characters. -/
structure Printed (dev : OutputDevice) (supp : Support) (mem : Word → Byte) (cs : List Byte)
    (sts : List Word) (r : Progress) (loaded : State) : Prop where
  characters : r.ops.filterMap ServiceOp.char = cs.take (sts.findIdx dev.fails + 1)
  result : loaded.regV0 = match sts.find? dev.fails with
    | none => BitVec.ofNat 32 cs.length
    | some st => -st
  mutex : r.ops.filter ServiceOp.isMutex =
    [.passeren (dev.mutex supp.supAsid), .verhogen (dev.mutex supp.supAsid)]
  unchanged : ∀ i ≤ cs.length, r.mem (charAddr (supp.supExceptState generalExcept).regA1 i) =
    mem (charAddr (supp.supExceptState generalExcept).regA1 i)

/-- An error leaves an `EOS` where there was a character. -/
theorem Puts.unchanged_iff {sts : List Word} {r : Progress} (h : Puts dev mem a retValue cs sts r)
    (hcs : StringAt mem a cs) (hlen : sts.length ≤ cs.length) :
    (∀ i ≤ cs.length, r.mem (charAddr a i) = mem (charAddr a i)) ↔
      ∀ st ∈ sts, dev.fails st = false := by
  cases hi : sts.findIdx? dev.fails with
  | none =>
      have hmem : r.mem = mem := by rw [h.mem, hi]
      rw [hmem]
      exact iff_of_true (fun _ _ => rfl) (List.findIdx?_eq_none_iff.mp hi)
  | some i =>
      have hmem : r.mem = Function.update mem (charAddr a i) eos := by rw [h.mem, hi]
      obtain ⟨hlt, hfails, -⟩ := List.findIdx?_eq_some_iff_getElem.mp hi
      refine iff_of_false (fun hsame => ?_) fun hnone => ?_
      · obtain ⟨hchar, hne⟩ := hcs.get (Nat.lt_of_lt_of_le hlt hlen)
        have heq := hsame i (by omega)
        rw [hmem, Function.update_self, hchar] at heq
        exact hne heq.symm
      · exact absurd (hnone _ (List.getElem_mem hlt)) (by simp [hfails])

end

/-- `WRITEPRINTER` and `WRITETERMINAL` return, and have done with the string
what they ought to if and only if no character is answered by an error. -/
theorem printed_iff {dev : OutputDevice} (hdev : dev = printer ∨ dev = terminal) {supp : Support}
    {mem : Word → Byte} {cs : List Byte} {statuses : List Word}
    (hacc : badString (supp.supExceptState generalExcept).regA1
      (supp.supExceptState generalExcept).regA2 = false)
    (hcs : StringAt mem (supp.supExceptState generalExcept).regA1 cs)
    (he : Enough dev cs statuses) :
    ∃ r loaded, writeString dev supp mem statuses = .returns r loaded ∧
      (Printed dev supp mem cs (answers cs statuses) r loaded ↔
        ∀ st ∈ answers cs statuses, dev.fails st = false) := by
  have hfaithful : dev.Faithful := by
    rcases hdev with rfl | rfl
    · exact printer_faithful
    · exact terminal_faithful
  have hputs := loop_string (supp.supAsid - 1) 0 hfaithful hcs he
  have hlen : (answers cs statuses).length ≤ cs.length := by simp [answers]
  have hres : writeString dev supp mem statuses = _ :=
    (if_neg (by simp [hacc])).trans (Progress.finish_ended hputs.ended (dev.mutex supp.supAsid) _)
  refine ⟨_, _, hres, fun h => (hputs.unchanged_iff hcs hlen).mp h.unchanged, fun h => ?_⟩
  constructor
  case characters =>
    rw [List.filterMap_append, List.filterMap_cons, hputs.characters]
    exact List.append_nil _
  case result =>
    show (dev.loop _ _ _ _ _).retValue = _
    rw [hputs.retValue]
    cases (answers cs statuses).find? dev.fails with
    | none => exact BitVec.zero_add _
    | some st => rfl
  case mutex =>
    rw [List.filter_append, List.filter_cons, hputs.mutex]
    rfl
  case unchanged => exact (hputs.unchanged_iff hcs hlen).mpr h

/-- The string "Hi" at the start of a page. -/
def stringMemory : Word → Byte :=
  fun a => if a = 0x80001000 then 72 else if a = 0x80001001 then 105 else 0

theorem stringMemory_string : StringAt stringMemory 0x80001000 [72, 105] := by decide

/-- It is printed by `WRITEPRINTER`. -/
theorem printed_iff_hi : ∃ r loaded,
    writeToPrinter (callingSupport writePrinter 0x80001000 2) stringMemory [1, 1] =
      .returns r loaded ∧
        Printed printer (callingSupport writePrinter 0x80001000 2) stringMemory [72, 105]
          (answers [72, 105] [1, 1]) r loaded := by
  obtain ⟨r, loaded, hres, hiff⟩ := @printed_iff printer (.inl rfl)
    (callingSupport writePrinter 0x80001000 2) stringMemory [72, 105] [1, 1] (by decide)
    stringMemory_string (.inl (by decide))
  have hok : ∀ st ∈ answers [72, 105] [1, 1], printer.fails st = false := by
    intro st hst
    obtain rfl : st = 1 := by simpa [answers] using hst
    decide
  exact ⟨r, loaded, hres, hiff.mpr hok⟩

/-- The printer runs out of paper at the second character. -/
theorem not_printed_error : ∃ r loaded,
    writeToPrinter (callingSupport writePrinter 0x80001000 2) stringMemory [1, 4] =
      .returns r loaded ∧ stringMemory 0x80001001 = 105 ∧ r.mem 0x80001001 = eos ∧
        ¬ Printed printer (callingSupport writePrinter 0x80001000 2) stringMemory [72, 105] [1, 4] r
          loaded := by
  refine ⟨_, _, rfl, rfl, by decide +kernel, fun h => ?_⟩
  have hsame := h.unchanged 1 (by decide)
  exact absurd hsame (by decide +kernel)

end Pandos
