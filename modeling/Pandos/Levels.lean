/-
# `Pandos.Levels` — pointers, lists, and what the nucleus does

The nucleus runs at three levels.

    Kernel Queues    rings, the sorted list of descriptors, free lists
    Kernel Fifos     the same handlers over plain lists
    Core             an event is an `Action` on processes and semaphores

The first two are bisimilar from boot on: they come back from the same lists
of events, and whatever one reads off the pointers is what the lists say
(`lists_bisimulate`).  The third follows the other two (`run_refines_core`).
-/
import Pandos.Lib.Paths
import Pandos.Script

namespace Pandos

open Simulation Paths

/-! ## Pointers and lists -/

/-- What is read off the pointer structures of `k` are the lists of `f`. -/
structure Shows (k : Kernel Queues) (f : Fifos) : Prop where
  free : k.q.freeList = f.free
  ready : k.readyList = f.ready
  blocked : ∀ s, k.blockedOn s = f.blocked s
  pSemAdd : k.q.pSemAdd = f.pSemAdd

theorem QRep.shows {k : Kernel Queues} {f : Fifos} (h : QRep k.q f) : Shows k f :=
  ⟨h.freeList_eq, h.readyList_eq, h.blockedOn_eq, h.pSemAdd⟩

/-- The two levels, and the invariant that `Core.next` keeps. -/
structure Alike (k : Kernel Queues) (a : Kernel Fifos) : Prop where
  sim : KSim k a
  inv : a.core.Inv

theorem Boot.alike {k : Kernel Queues} (h : Boot k) :
    ∃ m, Alike k ⟨k.toShared, (bootCore m).q⟩ := by
  obtain ⟨m, hrep⟩ := h.rep
  have hcore : (⟨k.toShared, (bootCore m).q⟩ : Kernel Fifos).core = bootCore m := hrep.core.symm
  exact ⟨m, ⟨rfl, hrep.queues⟩, hcore ▸ hrep.inv⟩

/-- The paths of `Step` are the runs. -/
theorem path_iff {Q : Type} [QueueOps Q] {k₀ k : Kernel Q} {es : List Event} :
    Path Step k₀ es k ↔ ∃ tr, Run k₀ tr k ∧ tr.map Trans.event = es := by
  constructor
  · intro h
    induction h with
    | nil => exact ⟨[], .nil, rfl⟩
    | snoc _ hs ih =>
        obtain ⟨tr, hrun, rfl⟩ := ih
        exact ⟨_, hrun.snoc hs, by simp⟩
  · rintro ⟨tr, h, rfl⟩
    induction h with
    | nil => exact .nil
    | snoc _ hs ih =>
        rw [List.map_append]
        exact ih.snoc hs

theorem alike_bisimilar :
    Bisimilar Alike (Step : Kernel Queues → Event → Kernel Queues → Prop) Step where
  forth := by
    constructor
    rintro k a e k' ⟨hsim, hinv⟩ ⟨fuel, hk'⟩
    obtain ⟨a', ha', hnext⟩ := KSim.step_tracks e hsim hinv k' hk'
    obtain ⟨k'', hk'', hsim'⟩ := KSim.step fuel e hsim a' ha'
    obtain rfl := Option.some.inj (hk'.symm.trans hk'')
    exact ⟨a', ⟨fuel, ha'⟩, hsim', Core.next_inv hinv hnext⟩
  back := by
    constructor
    rintro a k e a' ⟨hsim, hinv⟩ ⟨fuel, ha'⟩
    obtain ⟨k', hk', hsim'⟩ := KSim.step fuel e hsim a' ha'
    obtain ⟨b, hb, hnext⟩ := KSim.step_tracks e hsim hinv k' hk'
    obtain rfl := Option.some.inj (hb.symm.trans ha')
    exact ⟨k', ⟨fuel, hk'⟩, hsim', Core.next_inv hinv hnext⟩

/-- From boot on, the nucleus over pointers and the nucleus over lists come
back from the same lists of events, in states that agree: the structures hold
the lists, and everything else is equal. -/
theorem lists_bisimulate {k₀ : Kernel Queues} (h₀ : Boot k₀) :
    ∃ a₀ : Kernel Fifos, a₀.toShared = k₀.toShared ∧
      a₀.q = ⟨(List.finRange maxProc).tail, false, [], fun _ => [], fun _ => 0⟩ ∧ ∀ es,
        (Accepted Step k₀ es ↔ Accepted Step a₀ es) ∧
        (∀ k, Path Step k₀ es k → ∃ a, Path Step a₀ es a ∧
          k.toShared = a.toShared ∧ Shows k a.q) ∧
        ∀ a, Path Step a₀ es a → ∃ k, Path Step k₀ es k ∧
          k.toShared = a.toShared ∧ Shows k a.q := by
  obtain ⟨m, halike⟩ := h₀.alike
  refine ⟨⟨k₀.toShared, (bootCore m).q⟩, rfl, rfl, fun es => ⟨?_, ?_, ?_⟩⟩
  · exact alike_bisimilar.accepts_iff halike es
  · intro k hk
    obtain ⟨a, ha, hsim, -⟩ := alike_bisimilar.forth.path halike hk
    exact ⟨a, ha, hsim.1, hsim.2.shows⟩
  · intro a ha
    obtain ⟨k, hk, hsim, -⟩ := alike_bisimilar.back.path halike ha
    exact ⟨k, hk, hsim.1, hsim.2.shows⟩

/-- Two processes are created, and one of them waits. -/
def levelsScript : List Event := [callCreate, callCreate, pltTick, callP 0x90000000]

theorem lists_bisimulate_levelsScript : ∃ (k : Kernel Queues) (a : Kernel Fifos), Reachable k ∧
    Shows k a.q ∧ a.q.ready = [0] ∧ a.q.blocked 0x90000000 = [1] ∧ a.currentProcess = some 2 := by
  have hany : (Script.eval 0 .zero .zero levelsScript).any (fun x =>
      x.final.readyList = [0] ∧ x.final.blockedOn 0x90000000 = [1] ∧
        x.final.currentProcess = some 2) = true := by
    decide +kernel
  obtain ⟨x, hx, h⟩ := Script.exists_of_any hany
  obtain ⟨hready, hblocked, hcur⟩ := of_decide_eq_true h
  obtain ⟨hboot, hrun, hev⟩ := Script.run hx
  obtain ⟨a₀, -, -, hall⟩ := lists_bisimulate hboot
  obtain ⟨a, -, hsh, hshows⟩ := (hall levelsScript).2.1 x.final (path_iff.mpr ⟨_, hrun, hev⟩)
  exact ⟨x.final, a, ⟨_, _, hboot, hrun⟩, hshows, hshows.ready.symm.trans hready,
    (hshows.blocked _).symm.trans hblocked, hsh ▸ hcur⟩

/-! ## Lists and actions -/

/-- An action of the abstract model; the bound on the recursion is left open. -/
def Core.Acts (c : Core) (act : Action) (c' : Core) : Prop := ∃ fuel, c.next fuel act = some c'

/-- A step of the nucleus, labelled with the action it amounts to. -/
abbrev ActStep : Kernel Queues → Action → Kernel Queues → Prop :=
  relabel (fun k e => action k.toShared e) Step

theorem rep_simulates : Simulates Rep ActStep Core.Acts := by
  constructor
  rintro k c act k' hc ⟨e, rfl, hs⟩
  obtain ⟨fuel, d, hnext, hd⟩ := hc.step hs
  exact ⟨d, ⟨fuel, hnext⟩, hd⟩

theorem Run.path {k₀ k : Kernel Queues} {tr : List (Trans Queues)} (h : Run k₀ tr k) :
    Path ActStep k₀ (tr.map Trans.action) k := by
  induction h with
  | nil => exact .nil
  | @snoc tr k e k' _ hs ih =>
      rw [List.map_append]
      exact ih.snoc ⟨e, rfl, hs⟩

/-- A state of the nucleus and the abstract state it stands for. -/
structure Shared.Matches (k : Shared) (c : Core) : Prop where
  layout : c.layout = k.layout
  tree : c.tree = k.tree
  mem : c.mem = k.mem
  processCount : c.processCount = k.processCount
  softBlockedCount : c.softBlockedCount = k.softBlockedCount
  current : c.current = k.currentProcess
  mode : c.mode = k.cpu.mode

/-- The actions of a run of the nucleus are a run of the abstract model.  It
starts with the memory that `main` has found, and ends in what the state shows. -/
theorem run_refines_core {m : Memory} {hw : Hw} {k₀ k : Kernel Queues} {tr : List (Trans Queues)}
    (h₀ : main m hw = some k₀) (h : Run k₀ tr k) :
    ∃ c, Path Core.Acts (bootCore m) (tr.map Trans.action) c ∧ k.Matches c ∧ Shows k c.q := by
  obtain ⟨k₁, hk₁, hrep⟩ := main_rep m hw
  obtain rfl := Option.some.inj (hk₁.symm.trans h₀)
  obtain ⟨c, hc, hk⟩ := rep_simulates.path hrep h.path
  refine ⟨c, hc, ?_, hk.queues.shows⟩
  exact ⟨hk.layout, hk.tree, hk.mem, hk.processCount, hk.softBlockedCount, hk.current, hk.mode⟩

theorem run_refines_core_levelsScript : ∃ (k₀ k : Kernel Queues) (tr : List (Trans Queues))
    (c : Core), main .zero .zero = some k₀ ∧ Run k₀ tr k ∧ Path Core.Acts (bootCore .zero)
      [.createProcess, .createProcess, .plt, .passeren 0x90000000] c ∧ c.q.ready = k.readyList ∧
      c.mem 0x90000000 = -1 := by
  have hany : (Script.eval 0 .zero .zero levelsScript).any (fun x =>
      x.trace.map Trans.action =
          [.createProcess, .createProcess, .plt, .passeren 0x90000000] ∧
        x.final.mem 0x90000000 = -1) = true := by
    decide +kernel
  obtain ⟨x, hx, h⟩ := Script.exists_of_any hany
  obtain ⟨hact, hmem⟩ := of_decide_eq_true h
  obtain ⟨hmain, hrun, -⟩ := Script.run_main hx
  obtain ⟨c, hc, hmatch, hshows⟩ := run_refines_core hmain hrun
  exact ⟨x.start, x.final, x.trace, c, hmain, hrun, hact ▸ hc, hshows.ready.symm,
    (congrFun hmatch.mem _).trans hmem⟩

end Pandos
