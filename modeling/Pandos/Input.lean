/-
# `Pandos.Input` — `READTERMINAL`

The loop of `read_From_Terminal` looks at the last character and at the last
answer of the receiver, and sets both in the middle of a round.  In terms of
the answers alone it goes on up to the first that `ends` it: a `\n`, or an
answer that is neither `READY` nor 5, in whose place an `EOS` is written.

`readLoop_line` gives the result of the loop in closed form, and
`readFromTerminal_line` what a call amounts to.
-/
import Pandos.UserMemory

namespace Pandos

/-! ## Answers -/

/-- The second byte of an answer. -/
def recvByte (st : Word) : Byte := (st >>> 8).setWidth 8

/-- The low byte of an answer is 5 or `READY`. -/
def recvGood (st : Word) : Bool := st &&& 0xFF = 5 ∨ st &&& 0xFF = ready

/-- The answer is the last one. -/
def ends (st : Word) : Bool := !recvGood st || recvByte st = newline

/-- What stays in memory for the last answer. -/
def lastByte (st : Word) : Byte := if recvGood st then newline else eos

theorem fails_iff {st : Word} :
    st &&& termStatMask ≠ recvd ∧ st &&& termStatMask ≠ ready ↔ recvGood st = false := by
  simp [recvGood]

theorem goesOn_iff {c : Byte} {st : Word} :
    goesOn c st = true ↔ c ≠ newline ∧ recvGood st = true := by
  simp [goesOn, recvGood, or_comm]

theorem goesOn_recvByte (st : Word) : goesOn (recvByte st) st = !ends st := by
  rw [Bool.eq_iff_iff, goesOn_iff]
  simp [ends, and_comm]

/-! ## Consecutive bytes -/

theorem charAddr_inj {a : Word} {i j : Nat} (hi : i < 2 ^ 32) (hj : j < 2 ^ 32)
    (h : charAddr a i = charAddr a j) : i = j := by
  have hij := congrArg BitVec.toNat (BitVec.add_right_inj a |>.mp h)
  rwa [BitVec.toNat_ofNat, BitVec.toNat_ofNat, Nat.mod_eq_of_lt hi, Nat.mod_eq_of_lt hj] at hij

/-- The bytes are stored one after the other, from `a` on. -/
def storeBytes (mem : Word → Byte) (a : Word) : List Byte → Word → Byte
  | [] => mem
  | b :: bs => storeBytes (Function.update mem a b) (a + 1) bs

section

variable {mem : Word → Byte} {bs : List Byte}

theorem storeBytes_of_ne : ∀ {mem : Word → Byte} {a x : Word},
    (∀ i < bs.length, x ≠ charAddr a i) → storeBytes mem a bs x = mem x := by
  induction bs with
  | nil => exact fun _ => rfl
  | cons b bs ih =>
      intro mem a x h
      have hx : x ≠ a := by simpa using h 0 (Nat.succ_pos _)
      have hrest : ∀ i < bs.length, x ≠ charAddr (a + 1) i := by
        intro i hi
        rw [← charAddr_succ]
        exact h (i + 1) (Nat.succ_lt_succ hi)
      rw [storeBytes, ih hrest, Function.update_of_ne hx]

/-- As long as the addresses differ, each byte is where it was stored. -/
theorem storeBytes_getElem : ∀ {mem : Word → Byte} {a : Word} {i : Nat} (hi : i < bs.length),
    bs.length ≤ 2 ^ 32 → storeBytes mem a bs (charAddr a i) = bs[i] := by
  induction bs with
  | nil =>
      intro mem a i hi
      cases hi
  | cons b bs ih =>
      intro mem a i hi hlen
      rw [List.length_cons] at hi hlen
      rw [storeBytes]
      cases i with
      | zero =>
          have hfirst : ∀ j < bs.length, charAddr a 0 ≠ charAddr (a + 1) j := by
            intro j hj e
            rw [← charAddr_succ] at e
            have := charAddr_inj (by omega) (by omega) e
            omega
          rw [storeBytes_of_ne hfirst, charAddr_zero, Function.update_self]
          rfl
      | succ i =>
          rw [charAddr_succ]
          exact ih (Nat.lt_of_succ_lt_succ hi) (by omega)

end

/-! ## The loop -/

/-- The operations of the first `n` rounds. -/
def rounds (devNo a : Word) : Nat → List ServiceOp
  | 0 => []
  | n + 1 => [.io devNo (.receive recvChr), .write a, .read a] ++ rounds devNo (a + 1) n

/-- The `EOS` written over the character of a failed round. -/
def overwrites (st a : Word) : List ServiceOp := if recvGood st then [] else [.write a]

def ServiceOp.isIo : ServiceOp → Bool
  | .io _ _ => true
  | .passeren _ | .verhogen _ | .read _ | .write _ => false

theorem rounds_isIo (devNo : Word) (n : Nat) : ∀ a,
    (rounds devNo a n).filter ServiceOp.isIo = List.replicate n (.io devNo (.receive recvChr)) := by
  induction n with
  | zero => exact fun _ => rfl
  | succ n ih =>
      intro a
      rw [rounds, List.filter_append, ih]
      rfl

theorem rounds_isMutex (devNo : Word) (n : Nat) : ∀ a,
    (rounds devNo a n).filter ServiceOp.isMutex = [] := by
  induction n with
  | zero => exact fun _ => rfl
  | succ n ih =>
      intro a
      rw [rounds, List.filter_append, ih]
      rfl

theorem mem_touched_rounds {devNo x : Word} {n : Nat} : ∀ {a},
    x ∈ touched (rounds devNo a n) ↔ ∃ i < n, x = charAddr a i := by
  induction n with
  | zero => simp [rounds, touched]
  | succ n ih =>
      intro a
      rw [rounds, touched_append, List.mem_append, ih]
      constructor
      · rintro (hx | ⟨i, hi, hx⟩)
        · have hx : a = x := by simpa [touched, ServiceOp.address] using hx
          exact ⟨0, Nat.succ_pos n, by rw [charAddr_zero, hx]⟩
        · exact ⟨i + 1, Nat.succ_lt_succ hi, by rw [charAddr_succ, hx]⟩
      · rintro ⟨i, hi, hx⟩
        cases i with
        | zero =>
            rw [charAddr_zero] at hx
            exact .inl (by simp [touched, ServiceOp.address, hx])
        | succ i => exact .inr ⟨i, Nat.lt_of_succ_lt_succ hi, by rw [← charAddr_succ, hx]⟩

section

variable {devNo st : Word} {rest : List Word} {rcvd : Byte} {status a retValue : Word}
  {mem : Word → Byte}

/-- The round of the last answer. -/
theorem readLoop_last (hgo : goesOn rcvd status = true) (hst : ends st = true) :
    readLoop devNo (st :: rest) rcvd status mem a retValue =
      ⟨Function.update mem a (lastByte st), if recvGood st then retValue + 1 else -st,
        rounds devNo a 1 ++ overwrites st a, true⟩ := by
  have hchar : Function.update mem a (recvByte st) a = recvByte st := Function.update_self ..
  have hstop : goesOn (recvByte st) st = false := by rw [goesOn_recvByte, hst]; rfl
  rw [readLoop, if_pos hgo]
  dsimp only
  rw [← recvByte, hchar, readLoop_stop hstop, readLoop_stop hstop]
  cases hgood : recvGood st with
  | true =>
      have hnl : recvByte st = newline := by simpa [ends, hgood] using hst
      rw [if_neg (by rw [fails_iff, hgood]; decide)]
      simp [Progress.after, lastByte, overwrites, hgood, hnl, rounds]
  | false =>
      rw [if_pos (fails_iff.mpr hgood)]
      simp [Progress.after, lastByte, overwrites, hgood, rounds]

/-- A round after which the loop goes on. -/
theorem readLoop_more (hgo : goesOn rcvd status = true) (hst : ends st = false) :
    readLoop devNo (st :: rest) rcvd status mem a retValue =
      (readLoop devNo rest (recvByte st) st (Function.update mem a (recvByte st)) (a + 1)
        (retValue + 1)).after (rounds devNo a 1) := by
  have hchar : Function.update mem a (recvByte st) a = recvByte st := Function.update_self ..
  have hgood : recvGood st = true := by
    have hgoes := goesOn_recvByte st
    rw [hst, Bool.not_false, goesOn_iff] at hgoes
    exact hgoes.2
  rw [readLoop, if_pos hgo]
  dsimp only
  rw [← recvByte, hchar, if_neg (by rw [fails_iff, hgood]; decide)]
  rfl

/-- The loop up to the first answer that ends it. -/
theorem readLoop_line {pre : List Word} (hst : ends st = true) :
    ∀ {rcvd : Byte} {status a retValue : Word} {mem : Word → Byte}, goesOn rcvd status = true →
      (∀ x ∈ pre, ends x = false) →
      readLoop devNo (pre ++ st :: rest) rcvd status mem a retValue =
        ⟨storeBytes mem a (pre.map recvByte ++ [lastByte st]),
          if recvGood st then retValue + BitVec.ofNat 32 (pre.length + 1) else -st,
          rounds devNo a (pre.length + 1) ++ overwrites st (charAddr a pre.length), true⟩ := by
  induction pre with
  | nil =>
      intro rcvd status a retValue mem hgo _
      rw [List.nil_append, readLoop_last hgo hst]
      simp [storeBytes]
  | cons x pre ih =>
      intro rcvd status a retValue mem hgo hpre
      obtain ⟨hx, hpre⟩ := List.forall_mem_cons.mp hpre
      have hgoes : goesOn (recvByte x) x = true := by rw [goesOn_recvByte, hx]; rfl
      rw [List.cons_append, readLoop_more hgo hx, ih hgoes hpre, Progress.after]
      have hvalue : retValue + 1 + BitVec.ofNat 32 (pre.length + 1) =
          retValue + BitVec.ofNat 32 (pre.length + 1 + 1) := by
        rw [BitVec.add_assoc, BitVec.ofNat_add (pre.length + 1) 1, BitVec.add_comm 1]
        rfl
      rw [hvalue, ← charAddr_succ]
      rfl

end

/-! ## The call -/

/-- What a call with the buffer `a` does, when `answers` are the statuses
before the one that ends it. -/
structure ReadsLine (asid a : Word) (mem : Word → Byte) (answers : List Word) (st : Word)
    (r : Progress) (v0 : Word) : Prop where
  commands : r.ops.filter ServiceOp.isIo =
    List.replicate (answers.length + 1) (.io (asid - 1) (.receive recvChr))
  mutex : r.ops.filter ServiceOp.isMutex = [.passeren (.termRead asid), .verhogen (.termRead asid)]
  addresses : ∀ x ∈ touched r.ops, ∃ i ≤ answers.length, x = charAddr a i
  /-- In this order, should the addresses wrap around. -/
  stores : r.mem = storeBytes mem a
    (answers.map recvByte ++ [if recvGood st then newline else eos])
  others : ∀ x, (∀ i ≤ answers.length, x ≠ charAddr a i) → r.mem x = mem x
  chars : answers.length < 2 ^ 32 → ∀ i (hi : i < answers.length),
    r.mem (charAddr a i) = recvByte answers[i]
  last : answers.length < 2 ^ 32 →
    r.mem (charAddr a answers.length) = if recvGood st then newline else eos
  retValue : v0 = if recvGood st then BitVec.ofNat 32 (answers.length + 1) else -st

theorem ReadsLine.of_ops {asid a st v0 : Word} {mem : Word → Byte} {answers : List Word}
    {r : Progress}
    (hops : r.ops = .passeren (.termRead asid) :: (rounds (asid - 1) a (answers.length + 1) ++
      overwrites st (charAddr a answers.length)) ++ [.verhogen (.termRead asid)])
    (hmem : r.mem = storeBytes mem a (answers.map recvByte ++ [lastByte st]))
    (hv0 : v0 = if recvGood st then BitVec.ofNat 32 (answers.length + 1) else -st) :
    ReadsLine asid a mem answers st r v0 := by
  have hlen : (answers.map recvByte ++ [lastByte st]).length = answers.length + 1 := by simp
  have hover : ∀ op ∈ overwrites st (charAddr a answers.length),
      op = .write (charAddr a answers.length) := by
    intro op hop
    unfold overwrites at hop
    split at hop
    · exact absurd hop List.not_mem_nil
    · exact List.mem_singleton.mp hop
  have hnone : ∀ f : ServiceOp → Bool, f (.write (charAddr a answers.length)) = false →
      (overwrites st (charAddr a answers.length)).filter f = [] := by
    intro f hf
    refine List.filter_eq_nil_iff.mpr fun op hop => ?_
    rw [hover op hop, hf]
    decide
  constructor
  case commands =>
    rw [hops, List.filter_append, List.filter_cons_of_neg (by exact Bool.false_ne_true),
      List.filter_append, rounds_isIo, hnone ServiceOp.isIo rfl, List.append_nil]
    exact List.append_nil _
  case mutex =>
    rw [hops, List.filter_append, List.filter_cons_of_pos rfl, List.filter_append, rounds_isMutex,
      hnone ServiceOp.isMutex rfl]
    rfl
  case addresses =>
    intro x hx
    have hends : touched r.ops = touched (rounds (asid - 1) a (answers.length + 1) ++
        overwrites st (charAddr a answers.length)) := by
      rw [hops, touched_append]
      exact List.append_nil _
    rw [hends, touched_append] at hx
    rcases List.mem_append.mp hx with hx | hx
    · obtain ⟨i, hi, rfl⟩ := mem_touched_rounds.mp hx
      exact ⟨i, Nat.le_of_lt_succ hi, rfl⟩
    · obtain ⟨op, hop, hx⟩ := List.mem_filterMap.mp hx
      rw [hover op hop] at hx
      exact ⟨answers.length, le_refl _, (Option.some.inj hx).symm⟩
  case stores => exact hmem
  case others =>
    intro x hx
    rw [hmem]
    refine storeBytes_of_ne fun i hi => hx i ?_
    omega
  case chars =>
    intro h32 i hi
    rw [hmem, storeBytes_getElem (by omega) (by omega)]
    simp [hi]
  case last =>
    intro h32
    rw [hmem, storeBytes_getElem (by omega) (by omega)]
    simp [lastByte]
  case retValue => exact hv0

section

variable {supp : Support} {mem : Word → Byte} {statuses : List Word}

theorem readFromTerminal_eq {pre rest : List Word} {st : Word}
    (ha : uprocStartAddr ≤ (supp.supExceptState generalExcept).regA1)
    (hpre : ∀ x ∈ pre, ends x = false) (hst : ends st = true) :
    ∃ r loaded, readFromTerminal supp mem (pre ++ st :: rest) = .returns r loaded ∧
      ReadsLine supp.supAsid (supp.supExceptState generalExcept).regA1 mem pre st r
        loaded.regV0 := by
  have hlow : ¬ (supp.supExceptState generalExcept).regA1 < uprocStartAddr := Nat.not_lt.mpr ha
  have hgo : goesOn 48 ready = true := by decide
  have hcall : readFromTerminal supp mem (pre ++ st :: rest) = _ := if_neg hlow
  rw [readLoop_line hst hgo hpre, Progress.finish_ended rfl] at hcall
  refine ⟨_, _, hcall, ReadsLine.of_ops rfl rfl ?_⟩
  exact congrArg (fun v => if recvGood st then v else -st) (BitVec.zero_add _)

end

end Pandos
