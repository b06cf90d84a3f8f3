/-
# `Pandos.Refill` — are TLB refills transparent

A TLB miss may come at any instruction, and the program should not notice.
`uTLBRefillHandler` writes the missing entry, but then loads `p_s` instead of
the state the BIOS has saved.  The two are the same as long as nothing has
executed since the last dispatch (`UpToDate`); a miss at a later instruction
takes the process back to where it was dispatched, and a miss in a
support-level handler takes it out of the handler.

A program is what one instruction does to the registers and to memory, and the
machine is the nucleus of `Pandos.Machine` with a program running on it
(`exec`).
-/
import Pandos.Refinement
import Pandos.Phase3.MissingPage
import Pandos.Lib.Trace

namespace Pandos

open Kernel Phase3

/-! ## Programs -/

/-- What an instruction sees of a `state_t`. -/
structure Regs where
  status : Word
  pcEpc : Word
  gpr : Fin stateGprLen → Word
  hi : Word
  lo : Word

def State.regs (s : State) : Regs := ⟨s.status, s.pcEpc, s.gpr, s.hi, s.lo⟩

/-- The state the BIOS saves. -/
def Regs.save (r : Regs) (cause entryHi : Word) : State :=
  ⟨entryHi, cause, r.status, r.pcEpc, r.gpr, r.hi, r.lo⟩

/-- `LDCXT`; the other registers stay what the nucleus has left in them. -/
def Regs.load (left : Regs) (c : Context) : Regs :=
  { left with status := c.status, pcEpc := c.pc, gpr := Function.update left.gpr 26 c.stackPtr }

/-- The memory a process can write: semaphores, support structures, and its
own pages. -/
structure World (M : Type) where
  mem : Word → Int
  supp : Word → Support
  user : M

/-- One instruction of a process. -/
abbrev Program (M : Type) := PcbPtr → Regs → World M → Regs × World M

/-! ## The machine -/

/-- The nucleus, the registers of the running process, and the user pages. -/
structure Config (M : Type) where
  k : Kernel Queues
  regs : Regs
  user : M

def Config.world {M : Type} (s : Config M) : World M := ⟨s.k.mem, s.k.supp, s.user⟩

/-- The registers and the memory after an instruction. -/
def Config.put {M : Type} (s : Config M) (r : Regs × World M) : Config M :=
  ⟨{ s.k with mem := r.2.mem, supp := r.2.supp }, r.1, r.2.user⟩

/-- What happens next; `left` is what the nucleus leaves in the registers. -/
inductive Tick where
  | instr
  | exception (cause entryHi : Word) (left : Regs) (hw : Hw)
  | refill (cause entryHi badVAddr : Word) (left : Regs) (hw : Hw)

def Tick.visible : Tick → Bool
  | .instr | .exception _ _ _ _ => true
  | .refill _ _ _ _ _ => false

namespace Cpu

/-- The process has got to `s`. -/
def got (s : State) : Cpu → Cpu
  | .running _ | .context _ => .running s
  | .waiting => .waiting
  | .halted => .halted
  | .panicked => .panicked

def load (left : Regs) : Cpu → Regs
  | .running s => s.regs
  | .context c => left.load c
  | .waiting | .halted | .panicked => left

@[simp] theorem got_got (s s' : State) (c : Cpu) : (c.got s).got s' = c.got s' := by
  cases c <;> rfl

@[simp] theorem got_busy (s : State) (c : Cpu) : (c.got s).busy = c.busy := by
  cases c <;> rfl

theorem got_of_busy {c : Cpu} (h : c.busy) (s : State) : c.got s = .running s := by
  cases c with
  | running _ | context _ => rfl
  | waiting | halted | panicked => exact nomatch h

end Cpu

/-- The nucleus when the BIOS saves `saved`. -/
def Kernel.at (k : Kernel Queues) (saved : State) : Kernel Queues :=
  { k with cpu := k.cpu.got saved }

variable {M : Type}

def exec (P : Program M) (fuel : Nat) (s : Config M) : Tick → Option (Config M)
  | .instr =>
      if s.k.cpu.busy then do
        let cur ← s.k.currentProcess
        return s.put (P cur s.regs s.world)
      else none
  | .exception cause entryHi left hw => do
      let saved := s.regs.save cause entryHi
      let k ← step fuel (s.k.at saved) (.exception saved hw)
      return ⟨k, k.cpu.load left, s.user⟩
  | .refill cause entryHi badVAddr left hw => do
      let saved := s.regs.save cause entryHi
      let k ← step fuel (s.k.at saved) (.refill saved badVAddr hw)
      return ⟨k, k.cpu.load left, s.user⟩

/-- The process that executes, its registers, and the memory. -/
structure View (M : Type) where
  process : Option PcbPtr
  regs : Regs
  world : World M

def Config.view (s : Config M) : View M := ⟨s.k.currentProcess, s.regs, s.world⟩

/-- An instruction is executed. -/
def fetched (s : Config M) : Tick → Option (View M)
  | .instr => some s.view
  | .exception _ _ _ _ | .refill _ _ _ _ _ => none

/-- The instructions a run executes, each with what it is executed on. -/
def executed (tr : List (Trace.Entry (Config M) Tick)) : List (View M) :=
  tr.filterMap fun x => fetched x.before x.event

/-! ## One refill -/

/-- `addr` lies on the `i`-th page of the current process, which has a support
structure. -/
structure Misses (k : Kernel Queues) (cur : PcbPtr) (i : Fin maxPages) (addr : Word) : Prop where
  current : k.currentProcess = some cur
  support : k.pSupportStruct cur ≠ 0
  page : ∀ j, entryHiGetVpn ((k.supp (k.pSupportStruct cur)).supPrivatePgTbl j).entryHi =
    entryHiGetVpn addr ↔ j = i

/-- The refill writes the entry of the page, and the process goes on from
`saved`. -/
def Transparent (k : Kernel Queues) (cur : PcbPtr) (i : Fin maxPages) (addr : Word)
    (saved : State) : Prop :=
  ∀ fuel hw, ∃ k', step fuel k (.refill saved addr hw) = some k' ∧
    k'.tlb = Function.update k.tlb k.tlbIndex
      ((k.supp (k.pSupportStruct cur)).supPrivatePgTbl i) ∧
    k'.currentProcess = some cur ∧ k'.cpu = .running saved

section

variable {k k' : Kernel Queues} {cur : PcbPtr} {i : Fin maxPages} {addr : Word} {saved : State}
  {fuel : Nat} {hw : Hw}

theorem Misses.found (h : Misses k cur i addr) :
    getMissingPage (k.supp (k.pSupportStruct cur)) addr = some i := by
  cases hj : getMissingPage (k.supp (k.pSupportStruct cur)) addr with
  | none =>
      have hnone := List.find?_eq_none.mp hj i (List.mem_finRange i)
      exact absurd ((h.page i).mpr rfl) (by simpa using hnone)
  | some j => rw [(h.page j).mp (getMissingPage_some hj)]

/-- In the page tables the test program builds. -/
theorem misses_of_built (hcur : k.currentProcess = some cur) (ha : k.pSupportStruct cur ≠ 0)
    (hasid : UprocAsid (k.supp (k.pSupportStruct cur)).supAsid)
    (hb : Built (k.supp (k.pSupportStruct cur))) (hku : 0x80000000 ≤ addr) (hi : InPage i addr) :
    Misses k cur i addr := by
  have hvpn := (vpn_iff hasid hku).mpr (.inl hi)
  refine ⟨hcur, ha, fun j => ?_⟩
  have hj : ((k.supp (k.pSupportStruct cur)).supPrivatePgTbl j).entryHi = pageHi _ j := hb j
  rw [hj, ← hvpn]
  exact ⟨vpn_inj hasid, fun h => h ▸ rfl⟩

theorem Misses.handler (h : Misses k cur i addr) :
    uTLBRefillHandler fuel hw k addr = some (loadProcess (writeTLB k
      ((k.supp (k.pSupportStruct cur)).supPrivatePgTbl i)) cur) := by
  rw [uTLBRefillHandler_eq h.current, missingPage_support h.support, h.found]
  rfl

theorem step_refill (hbusy : k.cpu.busy) (h : Misses k cur i addr) :
    step fuel k (.refill saved addr hw) = some (loadProcess (writeTLB
      { k with biosDataPage := saved } ((k.supp (k.pSupportStruct cur)).supPrivatePgTbl i)) cur) := by
  have hsaved : Misses { k with biosDataPage := saved } cur i addr := ⟨h.current, h.support, h.page⟩
  rw [step, if_pos hbusy, hsaved.handler]

theorem busy_of_refill (h : step fuel k (.refill saved addr hw) = some k') : k.cpu.busy := by
  rw [step] at h
  split at h
  · assumption
  · cases h

theorem transparent_iff_pS (hbusy : k.cpu.busy) (h : Misses k cur i addr) :
    Transparent k cur i addr saved ↔ k.pS cur = saved := by
  constructor
  · intro ht
    obtain ⟨k', hk', -, -, hcpu⟩ := ht 0 Hw.zero
    obtain rfl := Option.some.inj ((step_refill hbusy h).symm.trans hk')
    exact Cpu.running.inj hcpu
  · rintro rfl fuel hw
    exact ⟨_, step_refill hbusy h, rfl, rfl, rfl⟩

end

/-! ## Runs -/

/-- `k` less the TLB and what the BIOS has saved last. -/
def Kernel.bare (k : Kernel Queues) : Kernel Queues :=
  { k.at zeroState with biosDataPage := zeroState, tlb := fun _ => ⟨0, 0⟩, tlbIndex := 0 }

def Config.bare (s : Config M) : Config M := ⟨s.k.bare, s.regs, s.user⟩

/-- The current process has executed nothing since it was dispatched, or is
back where it started. -/
def UpToDate (s : Config M) : Prop := ∀ cur ∈ s.k.currentProcess, (s.k.pS cur).regs = s.regs

/-- Refills are on pages of the current process, and at the state in its
`p_s`. -/
structure Refills (x : Trace.Entry (Config M) Tick) : Prop where
  page : ∀ {cause entryHi addr left hw}, x.event = .refill cause entryHi addr left hw →
    ∃ cur i, Misses x.before.k cur i addr
  upToDate : x.event.visible = false → UpToDate x.before

section

variable {k k' k₁ : Kernel Queues} {s t s' : Config M} {saved : State} {fuel : Nat} {hw : Hw}
  {P : Program M} {e : Tick}

theorem bare_congr {regs : Regs} (hk : k.bare = s.k.bare) (hregs : regs = s.regs) :
    Config.bare ⟨k, regs, s.user⟩ = s.bare := by
  rw [Config.bare, hk, hregs]
  rfl

theorem bare_at (k : Kernel Queues) (saved : State) : (k.at saved).bare = k.bare := by
  simp [Kernel.bare, Kernel.at]

/-- A refill brings back the process, and writes nothing else. -/
theorem bare_loadProcess {cur : PcbPtr} (hbusy : k.cpu.busy) (hcur : k.currentProcess = some cur)
    (saved : State) (pte : PteEntry) :
    (loadProcess (writeTLB { k with biosDataPage := saved } pte) cur).bare = k.bare := by
  have hgot : k.cpu.got zeroState = .running zeroState := Cpu.got_of_busy hbusy _
  have hload : (Cpu.running (k.pS cur)).got zeroState = .running zeroState := rfl
  simp only [Kernel.bare, Kernel.at, loadProcess, writeTLB, hgot, hcur, hload]

theorem sim_of_bare (h : k.bare = k'.bare) (saved : State) (d : Word → Word → DevReg) :
    Sim Eq k'.tlb k'.tlbIndex { k'.at saved with biosDataPage := saved, devReg := d }
      { k.at saved with biosDataPage := saved, devReg := d } := by
  have hat : ∀ k : Kernel Queues, { k.at saved with biosDataPage := saved, devReg := d } =
      { k.bare.at saved with
        biosDataPage := saved, devReg := d, tlb := k.tlb, tlbIndex := k.tlbIndex } := by
    intro k
    simp [Kernel.bare, Kernel.at]
  rw [hat k, hat k', h]
  exact ⟨rfl, rfl⟩

theorem cpu_of_bare (h : k.bare = k'.bare) (saved : State) :
    (k.at saved).cpu = (k'.at saved).cpu := by
  have hcpu : k.cpu.got zeroState = k'.cpu.got zeroState :=
    congrArg Shared.cpu (congrArg Kernel.toShared h)
  have hgot := congrArg (Cpu.got saved) hcpu
  rwa [Cpu.got_got, Cpu.got_got] at hgot

/-- The TLB makes no difference to an exception. -/
theorem step_exception_alike (h : k.bare = k'.bare)
    (hs : step fuel (k.at saved) (.exception saved hw) = some k₁) :
    ∃ k₁', step fuel (k'.at saved) (.exception saved hw) = some k₁' ∧ k₁.bare = k₁'.bare ∧
      k₁.cpu = k₁'.cpu := by
  rw [step] at hs
  split at hs
  case isFalse => cases hs
  case isTrue htakes =>
    rw [cpu_of_bare h] at htakes
    obtain ⟨⟨sh', q'⟩, hk₁', hsh, hq⟩ :=
      Sim.handleExceptions fuel hw (sim_of_bare h saved hw.devReg) k₁ hs
    obtain ⟨sh, q⟩ := k₁
    obtain rfl : sh' = sh.withTlb k'.tlb k'.tlbIndex := hsh
    obtain rfl : q' = q := hq
    rw [step, if_pos htakes]
    exact ⟨_, hk₁', rfl, rfl⟩

theorem exec_refill (h : Refills ⟨s, e, s'⟩) (he : e.visible = false)
    (hs : exec P fuel s e = some s') : s'.bare = s.bare := by
  cases e with
  | instr | exception _ _ _ _ => exact nomatch he
  | refill cause entryHi addr left hw =>
      obtain ⟨cur, i, hmiss⟩ := h.page rfl
      have hregs : (s.k.pS cur).regs = s.regs := h.upToDate rfl cur hmiss.current
      obtain ⟨k, hk, hs⟩ := Option.bind_eq_some_iff.mp hs
      obtain rfl := Option.some.inj hs
      have hbusy : (s.k.at (s.regs.save cause entryHi)).cpu.busy := busy_of_refill hk
      have hat : Misses (s.k.at (s.regs.save cause entryHi)) cur i addr :=
        ⟨hmiss.current, hmiss.support, hmiss.page⟩
      obtain rfl := Option.some.inj ((step_refill hbusy hat).symm.trans hk)
      have hbare := bare_loadProcess hbusy hat.current (s.regs.save cause entryHi)
        ((s.k.supp (s.k.pSupportStruct cur)).supPrivatePgTbl i)
      exact bare_congr (hbare.trans (bare_at _ _)) hregs

theorem view_eq (h : s.bare = t.bare) : s.view = t.view := by
  have hview := congrArg Config.view h
  exact hview

theorem bare_put (h : s.bare = t.bare) (r : Regs × World M) : (s.put r).bare = (t.put r).bare := by
  have hput := congrArg (Config.put · r) h
  exact hput

theorem busy_eq (h : s.bare = t.bare) : s.k.cpu.busy = t.k.cpu.busy := by
  have hgot : s.k.cpu.got zeroState = t.k.cpu.got zeroState :=
    congrArg (fun s : Config M => s.k.cpu) h
  have hbusy := congrArg Cpu.busy hgot
  rwa [Cpu.got_busy, Cpu.got_busy] at hbusy

/-- An instruction does not see the TLB. -/
theorem exec_instr_alike (h : s.bare = t.bare) (hs : exec P fuel s .instr = some s') :
    ∃ t', exec P fuel t .instr = some t' ∧ s'.bare = t'.bare := by
  rw [exec] at hs
  split at hs
  case isFalse => exact nomatch hs
  case isTrue hbusy =>
    obtain ⟨cur, hcur, hs⟩ := Option.bind_eq_some_iff.mp hs
    obtain rfl := Option.some.inj hs
    have hview := view_eq h
    have hprocess : t.k.currentProcess = some cur := (congrArg View.process hview).symm.trans hcur
    have hregs : s.regs = t.regs := congrArg View.regs hview
    have hworld : s.world = t.world := congrArg View.world hview
    refine ⟨t.put (P cur t.regs t.world), ?_, ?_⟩
    · rw [exec, if_pos (busy_eq h ▸ hbusy), hprocess]
      rfl
    · rw [hregs, hworld]
      exact bare_put h _

theorem exec_exception_alike {cause entryHi : Word} {left : Regs} (h : s.bare = t.bare)
    (hs : exec P fuel s (.exception cause entryHi left hw) = some s') :
    ∃ t', exec P fuel t (.exception cause entryHi left hw) = some t' ∧ s'.bare = t'.bare := by
  obtain ⟨hbare, hregs, huser⟩ := Config.mk.inj h
  obtain ⟨k, hk, hs⟩ := Option.bind_eq_some_iff.mp hs
  obtain rfl := Option.some.inj hs
  obtain ⟨k', hk', hbare', hcpu⟩ := step_exception_alike hbare hk
  rw [hregs] at hk'
  refine ⟨_, Option.bind_eq_some_iff.mpr ⟨k', hk', rfl⟩, ?_⟩
  rw [huser, Config.bare, hbare', hcpu]
  rfl

/-- Refills at an up-to-date `p_s` are silent. -/
theorem exec_stutters (P : Program M) (fuel : Nat) :
    Trace.Stutters (exec P fuel) Config.bare Tick.visible fetched Refills where
  silent he hG hs := exec_refill hG he hs
  unseen {_ e} he := by
    cases e with
    | instr | exception _ _ _ _ => exact nomatch he
    | refill _ _ _ _ _ => rfl
  alike {_ _ e _} he h hs := by
    cases e with
    | instr => exact exec_instr_alike h hs
    | exception _ _ _ _ => exact exec_exception_alike h hs
    | refill _ _ _ _ _ => exact nomatch he

theorem executed_eq (tr : List (Trace.Entry (Config M) Tick)) :
    executed tr = Trace.observed Config.bare fetched tr := by
  refine congrArg (List.filterMap · tr) (funext fun x => ?_)
  cases x.event with
  | instr | exception _ _ _ _ | refill _ _ _ _ _ => rfl

end

/-- A refill resumes the process at the saved state if and only if that is in
`p_s`; and where every refill comes at such a state, it makes no difference
where refills come. -/
theorem transparent_iff {k : Kernel Queues} {cur : PcbPtr} {i : Fin maxPages} {addr : Word}
    (hbusy : k.cpu.busy) (hmiss : Misses k cur i addr) (saved : State) (P : Program M) (fuel : Nat) :
    (Transparent k cur i addr saved ↔ k.pS cur = saved) ∧
    ∀ (s₀ s s' : Config M) (tr tr' : List (Trace.Entry (Config M) Tick)),
      Trace.Run (exec P fuel) s₀ tr s → Trace.Run (exec P fuel) s₀ tr' s' →
      (∀ x ∈ tr, Refills x) → (∀ x ∈ tr', Refills x) →
      Trace.shown Tick.visible tr = Trace.shown Tick.visible tr' →
        executed tr = executed tr' ∧ s.view = s'.view := by
  constructor
  · exact transparent_iff_pS hbusy hmiss
  · intro s₀ s s' tr tr' hrun hrun' hG hG' hshown
    obtain ⟨hobs, hbare⟩ := (exec_stutters P fuel).observed_eq hrun hrun' hG hG' hshown
    rw [executed_eq, executed_eq]
    exact ⟨hobs, view_eq hbare⟩

/-! ## Two runs -/

/-- A program of instructions that touch no memory. -/
def nops : Program Unit := fun _ r w => ({ r with pcEpc := r.pcEpc + 4 }, w)

def Config.next (s : Config Unit) : Config Unit :=
  { s with regs := { s.regs with pcEpc := s.regs.pcEpc + 4 } }

abbrev miss : Tick := .refill 0 0 0x80000000 zeroState.regs .zero

section

variable {k : Kernel Queues} {s : Config Unit} {cur : PcbPtr}

theorem exec_nop (hbusy : s.k.cpu.busy) (hcur : s.k.currentProcess = some cur) :
    exec nops 0 s .instr = some s.next := by
  rw [exec, if_pos hbusy, hcur]
  rfl

theorem exec_miss {i : Fin maxPages} (hbusy : s.k.cpu.busy) (h : Misses s.k cur i 0x80000000) :
    ∃ s', exec nops 0 s miss = some s' ∧ s'.k.cpu.busy ∧ s'.k.currentProcess = some cur ∧
      s'.regs = (s.k.pS cur).regs := by
  have hat : Misses (s.k.at (s.regs.save 0 0)) cur i 0x80000000 := ⟨h.current, h.support, h.page⟩
  have hs : step 0 (s.k.at (s.regs.save 0 0)) (.refill (s.regs.save 0 0) 0x80000000 .zero) =
    some _ := step_refill ((Cpu.got_busy _ _).trans hbusy) hat
  exact ⟨_, Option.bind_eq_some_iff.mpr ⟨_, hs, rfl⟩, rfl, rfl, rfl⟩

end

/-- The first U-proc, as it is dispatched. -/
theorem dispatched : ∃ k : Kernel Queues, Reachable k ∧ k.cpu.busy ∧ Misses k 1 0 0x80000000 := by
  obtain ⟨k, hreach, hbusy, hcur, ha, hasid, hb⟩ := pagedScript_final
  have ha0 : k.pSupportStruct 1 ≠ 0 := by
    rw [ha]
    decide
  exact ⟨k, hreach, hbusy, misses_of_built hcur ha0 (ha ▸ hasid) (ha ▸ hb) (by decide) (by decide)⟩

/-- A miss at the first instruction is not noticed. -/
theorem transparent_iff_first :
    ∃ (k : Kernel Queues) (tr tr' : List (Trace.Entry (Config Unit) Tick)), Reachable k ∧
      Transparent k 1 0 0x80000000 (k.pS 1) ∧ tr.map Trace.Entry.event = [.instr] ∧
      tr'.map Trace.Entry.event = [miss, .instr] ∧ executed tr = executed tr' := by
  obtain ⟨k, hreach, hbusy, hmiss⟩ := dispatched
  have hcur : k.currentProcess = some 1 := hmiss.current
  let s₀ : Config Unit := ⟨k, (k.pS 1).regs, ()⟩
  obtain ⟨s₁, hs₁, hbusy₁, hcur₁, -⟩ := exec_miss (s := s₀) hbusy hmiss
  have hrun : Trace.Run (exec nops 0) s₀ [⟨s₀, .instr, s₀.next⟩] s₀.next :=
    Trace.Run.nil.snoc (exec_nop hbusy hcur)
  have hrun' : Trace.Run (exec nops 0) s₀ [⟨s₀, miss, s₁⟩, ⟨s₁, .instr, s₁.next⟩] s₁.next :=
    (Trace.Run.nil.snoc hs₁).snoc (exec_nop hbusy₁ hcur₁)
  have hinstr : ∀ s s' : Config Unit, Refills ⟨s, .instr, s'⟩ := fun s s' => ⟨nofun, nofun⟩
  have hrefill : Refills ⟨s₀, miss, s₁⟩ := by
    refine ⟨fun h => ?_, fun _ cur h => ?_⟩
    · obtain ⟨-, -, rfl, -⟩ := Tick.refill.inj h
      exact ⟨1, 0, hmiss⟩
    · obtain rfl := Option.some.inj (hcur.symm.trans h)
      rfl
  obtain ⟨hiff, hruns⟩ := transparent_iff hbusy hmiss (k.pS 1) nops 0
  refine ⟨k, _, _, hreach, hiff.mpr rfl, rfl, rfl, (hruns s₀ _ _ _ _ hrun hrun' ?_ ?_ rfl).1⟩
  · simp [hinstr]
  · simp [hinstr, hrefill]

/-- One instruction later it is executed again. -/
theorem not_transparent : ∃ (k : Kernel Queues) (saved : State) (s₀ s s' : Config Unit)
    (tr tr' : List (Trace.Entry (Config Unit) Tick)), Reachable k ∧ k.cpu.busy ∧
      Misses k 1 0 0x80000000 ∧ ¬ Transparent k 1 0 0x80000000 saved ∧
      Trace.Run (exec nops 0) s₀ tr s ∧ Trace.Run (exec nops 0) s₀ tr' s' ∧
      tr.map Trace.Entry.event = [.instr, .instr] ∧
      tr'.map Trace.Entry.event = [.instr, miss, .instr] ∧ s.regs.pcEpc ≠ s'.regs.pcEpc := by
  obtain ⟨k, hreach, hbusy, hmiss⟩ := dispatched
  have hcur : k.currentProcess = some 1 := hmiss.current
  have hnext : ∀ pc : Word, pc ≠ pc + 4 := by
    intro pc
    bv_omega
  let s₀ : Config Unit := ⟨k, (k.pS 1).regs, ()⟩
  obtain ⟨s₁, hs₁, hbusy₁, hcur₁, hregs₁⟩ := exec_miss (s := s₀.next) hbusy hmiss
  refine ⟨k, { k.pS 1 with pcEpc := (k.pS 1).pcEpc + 4 }, s₀, s₀.next.next, s₁.next,
    [⟨s₀, .instr, s₀.next⟩, ⟨s₀.next, .instr, s₀.next.next⟩],
    [⟨s₀, .instr, s₀.next⟩, ⟨s₀.next, miss, s₁⟩, ⟨s₁, .instr, s₁.next⟩], hreach, hbusy, hmiss,
    ?_, ?_, ?_, rfl, rfl, ?_⟩
  · rw [transparent_iff_pS hbusy hmiss]
    intro h
    exact hnext _ (congrArg State.pcEpc h)
  · exact (Trace.Run.nil.snoc (exec_nop hbusy hcur)).snoc (exec_nop hbusy hcur)
  · exact ((Trace.Run.nil.snoc (exec_nop hbusy hcur)).snoc hs₁).snoc (exec_nop hbusy₁ hcur₁)
  · have hpc : s₁.regs.pcEpc = (k.pS 1).pcEpc := congrArg Regs.pcEpc hregs₁
    simp only [Config.next, hpc]
    exact fun h => hnext _ h.symm

end Pandos
