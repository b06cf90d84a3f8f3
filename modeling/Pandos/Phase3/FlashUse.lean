/-
# `Pandos.Phase3.FlashUse` — one command at a time

The pager writes the registers of a flash device without asking whether the
device is busy.  It holds `swapSem` from there to the return of the `IOWAIT`,
so no other process can write them in between.  If the root process ends them
all while a device works, the answer never comes, and `swapSem` stays taken.

In all runs there is at most one command `outstanding`, over all flash devices
together, and every answer is to that one, with the registers as the process
that waits for it has left them (`flash_one_at_a_time`).
-/
import Pandos.Phase3.LockQueue

namespace Pandos.Phase3

open Semaphore

/-! ## Commands -/

/-- The device a process waits for. -/
def Phase.device : Phase → Option Int
  | .paging _ _ (.writing d) | .paging _ _ (.reading d) => some d
  | .paging _ _ .chosen | .paging _ _ .invalidated | .paging _ _ .vacated | .paging _ _ .loaded
  | .paging _ _ .recorded | .user | .acquiring | .waiting | .holding | .found _ | .mapped
  | .terminating | .deallocated | .notified | .stray => none

/-- What a process has told a flash device to do. -/
structure Command where
  process : PcbPtr
  device : Int
  registers : Dtp

/-- The command for which `p` waits. -/
def Sys.command (k : Sys) (p : PcbPtr) : Option Command :=
  (k.proc p).bind fun u => u.phase.device.map fun d => ⟨p, d, k.vm.dtp d⟩

/-- The command that is given in a step. -/
def commanded (x : Entry) : Option Command :=
  match x.event with
  | .next p => x.after.command p
  | .root _ | .spawn _ _ | .store _ _ _ _ | .refill _ _ | .fault _ _ | .except _ _
  | .flashDone _ _ => none

/-- What is outstanding after a step, if `c` was before. -/
def afterEntry (c : Option Command) (x : Entry) : Option Command :=
  match x.event with
  | .flashDone _ _ => none
  | .next _ | .root _ | .spawn _ _ | .store _ _ _ _ | .refill _ _ | .fault _ _ | .except _ _ =>
      (commanded x).or c

/-- The last command, if no device has answered since. -/
def outstanding (tr : List Entry) : Option Command := tr.foldl afterEntry none

/-- While a command is outstanding, its process is the only one inside, or
nobody is and nobody gets inside. -/
structure OneCommand (tr : List Entry) (k : Sys) : Prop where
  waits : ∀ {p u d}, k.proc p = some u → u.phase.device = some d →
    outstanding tr = some ⟨p, d, k.vm.dtp d⟩
  inside : outstanding tr ≠ none → ∀ {p u}, k.proc p = some u → u.phase.inside = true →
    u.phase.device.isSome
  locked : outstanding tr ≠ none → k.swapSem.value ≠ 1

section
variable {k k' : Sys} {p : PcbPtr} {u : Uproc} {e : Event} {tr : List Entry} {c : Command}

theorem Phase.device_inside {φ : Phase} {d : Int} (h : φ.device = some d) : φ.inside = true := by
  cases φ with
  | paging _ _ _ => rfl
  | user | acquiring | waiting | holding | found _ | mapped | terminating | deallocated | notified
  | stray => cases h

theorem outstanding_snoc (tr : List Entry) (x : Entry) :
    outstanding (tr ++ [x]) = afterEntry (outstanding tr) x := by
  rw [outstanding, List.foldl_append]
  rfl

theorem Sys.command_eq (hp : k.proc p = some u) :
    k.command p = u.phase.device.map fun d => ⟨p, d, k.vm.dtp d⟩ := by
  rw [Sys.command, hp]
  rfl

theorem Sys.command_eq_none (h : ¬ k.Inside p) : k.command p = none := by
  cases hp : k.proc p with
  | none =>
      rw [Sys.command, hp]
      rfl
  | some u =>
      rw [Sys.command_eq hp]
      cases hd : u.phase.device with
      | none => rfl
      | some d => exact absurd ⟨u, hp, Phase.device_inside hd⟩ h

/-! ## Steps -/

/-- Who takes a step of its own waits for no device. -/
theorem next_device (h : k.next p u = some k') : u.phase.device = none := by
  cases hu : u.phase with
  | paging page frame σ =>
      rw [Sys.next, hu] at h
      cases σ with
      | writing d | reading d => cases h
      | chosen | invalidated | vacated | loaded | recorded => rfl
  | user | acquiring | waiting | holding | found _ | mapped | terminating | deallocated | notified
  | stray => rfl

theorem flashDone_device {status : Word} (h : k.flashDone p u status = some k') : ∃ d φ,
    u.phase.device = some d ∧ φ.device = none ∧
      k' = (k.setVm (k.vm.answer d status)).setPhase p u φ := by
  unfold Sys.flashDone at h
  split at h
  next page frame d hu =>
    exact ⟨d, .paging page frame .vacated, by rw [hu]; rfl, rfl, (Option.some.inj h).symm⟩
  next page frame d hu =>
    exact ⟨d, .paging page frame .loaded, by rw [hu]; rfl, rfl, (Option.some.inj h).symm⟩
  next => cases h

/-- Only who is inside writes the registers of a device. -/
theorem Outcome.dtp (h : Outcome k e k') (he : ∀ r, OwnStep r e → ¬ k.Inside r) :
    k'.vm.dtp = k.vm.dtp := by
  cases h with
  | writeOut hp hu _ | readIn hp hu => exact absurd ⟨_, hp, by rw [hu]; rfl⟩ (he _ rfl)
  | created _ _ _ _ | allCreated _ _ | rootDown _ _ | rootReturns _ _ | rootEnds _ | spawned _ _ _
  | store _ _ _ | refill _ _ _ _ _ | refillEnds _ _ _ _ _ | fault _ _ | except _ _ | acquire _ _
  | missing _ _ _ | find _ _ _ | choose _ _ | evict _ _ _ _ | skip _ _ _ | record _ _ | map _ _
  | release _ _ | dealloc _ _ | notify _ _ | gone _ _ | wrote _ _ | loaded _ _ => rfl

/-- A command comes from inside, from a process that waits for no device. -/
theorem commanded_inside (hs : step k e = some k') (hx : commanded ⟨k, e, k'⟩ = some c) :
    ∃ p u, e = .next p ∧ k.proc p = some u ∧ u.phase.inside = true ∧ u.phase.device = none := by
  cases e with
  | next p =>
      have hx : k'.command p = some c := hx
      obtain ⟨u, hp, hnext⟩ := Option.bind_eq_some_iff.mp hs
      refine ⟨p, u, rfl, hp, ?_, next_device hnext⟩
      by_contra hout
      rw [← inside_iff hp] at hout
      have hin : k'.Inside p := by
        by_contra hno
        cases (Sys.command_eq_none hno).symm.trans hx
      cases (step_outcome hs).queueMove with
      | @acquire r w he hr _ hk =>
          obtain rfl := Event.next.inj he
          subst hk
          have hself : (k.passerenSwap p w).proc p = some { w with
              phase := if k.swapSem.value - 1 < 0 then .waiting else .holding } :=
            Sys.setPhase_self ..
          rw [Sys.command_eq hself] at hx
          split at hx
          · cases hx
          · cases hx
      | release he hr hw _ | vanish he hr hw _ _ =>
          obtain rfl := Event.next.inj he
          exact hout ⟨_, hr, by rw [hw]; rfl⟩
      | clear he _ => exact he p rfl
      | within he hr hw _ _ _ _ _ =>
          obtain rfl : p = _ := he
          exact hout ⟨_, hr, hw⟩
      | without _ _ _ _ hsame _ => exact hout ((hsame p).mp hin)
  | root _ | spawn _ _ | store _ _ _ _ | refill _ _ | fault _ _ | except _ _ | flashDone _ _ =>
      cases hx

/-- What is outstanding stays so, if nobody inside moves but to leave. -/
theorem afterEntry_of_quiet (hs : step k e = some k')
    (h : ∀ p, OwnStep p e → k.Inside p → e = .next p ∧ ¬ k'.Inside p) (c : Option Command) :
    afterEntry c ⟨k, e, k'⟩ = c := by
  have hx : commanded ⟨k, e, k'⟩ = none := by
    cases hx : commanded ⟨k, e, k'⟩ with
    | none => rfl
    | some d =>
        obtain ⟨p, u, rfl, hp, hin, -⟩ := commanded_inside hs hx
        obtain ⟨-, hout⟩ := h p rfl ⟨u, hp, hin⟩
        cases (Sys.command_eq_none hout).symm.trans hx
  cases e with
  | flashDone p status =>
      obtain ⟨u, hp, hdone⟩ := Option.bind_eq_some_iff.mp hs
      obtain ⟨d, -, hd, -⟩ := flashDone_device hdone
      cases (h p rfl ⟨u, hp, Phase.device_inside hd⟩).1
  | next _ | root _ | spawn _ _ | store _ _ _ _ | refill _ _ | fault _ _ | except _ _ =>
      rw [afterEntry, hx]
      rfl

namespace OneCommand

/-- Nobody gives a command, and nobody comes in while one is outstanding. -/
theorem keep (h : OneCommand tr k) (hout : afterEntry (outstanding tr) ⟨k, e, k'⟩ = outstanding tr)
    (hdtp : k'.vm.dtp = k.vm.dtp) (hproc : ∀ r v, k'.proc r = some v → v.phase.inside = true →
      k.proc r = some v ∨ v.phase.device = none ∧ outstanding tr = none)
    (hsem : outstanding tr ≠ none → k'.swapSem.value ≠ 1) :
    OneCommand (tr ++ [⟨k, e, k'⟩]) k' := by
  have hsame := (outstanding_snoc tr ⟨k, e, k'⟩).trans hout
  constructor
  case waits =>
    intro r v d hv hd
    rw [hsame, hdtp]
    rcases hproc r v hv (Phase.device_inside hd) with hv | ⟨hnone, -⟩
    · exact h.waits hv hd
    · cases hnone.symm.trans hd
  case inside =>
    rw [hsame]
    intro hne r v hv hin
    rcases hproc r v hv hin with hv | ⟨-, hnone⟩
    · exact h.inside hne hv hin
    · exact absurd hnone hne
  case locked =>
    rw [hsame]
    exact hsem

/-- Who is inside and waits for no device finds no command outstanding. -/
theorem none_of_inside (h : OneCommand tr k) (hp : k.proc p = some u)
    (hin : u.phase.inside = true) (hd : u.phase.device = none) : outstanding tr = none := by
  by_contra hne
  have hsome := h.inside hne hp hin
  rw [hd] at hsome
  cases hsome

/-- Whoever moves inside gives a command, gets an answer or does neither. -/
theorem within {φ : Phase} (h : OneCommand tr k) (hl : k.Locks) (hs : Phase3.step k e = some k')
    (he : OwnStep p e) (hp : k.proc p = some u) (hu : u.phase.inside = true)
    (hsem : k'.swapSem = k.swapSem) (hproc : k'.proc = (k.setPhase p u φ).proc) :
    OneCommand (tr ++ [⟨k, e, k'⟩]) k' := by
  have hself : k'.proc p = some { u with phase := φ } := hproc ▸ k.setPhase_self p u φ
  have honly : ∀ {r v}, k'.proc r = some v → v.phase.inside = true →
      r = p ∧ { u with phase := φ } = v := by
    intro r v hv hin
    rw [hproc] at hv
    rcases Sys.of_setPhase hv with heq | ⟨hr, hv⟩
    · exact heq
    · exact absurd (hl.unique ⟨v, hv, hin⟩ ⟨u, hp, hu⟩) hr
  have hvalue : k'.swapSem.value ≠ 1 := by
    have hle := hl.value_nonpos ⟨u, hp, hu⟩
    rw [hsem]
    omega
  cases e with
  | next r =>
      obtain rfl : r = p := he
      obtain ⟨w, hw, hnext⟩ := Option.bind_eq_some_iff.mp hs
      obtain rfl := Option.some.inj (hp.symm.trans hw)
      have hnone := h.none_of_inside hp hu (next_device hnext)
      have hout : outstanding (tr ++ [⟨k, .next r, k'⟩]) =
          φ.device.map fun d => ⟨r, d, k'.vm.dtp d⟩ := by
        rw [outstanding_snoc, hnone, ← Sys.command_eq hself]
        exact Option.or_none
      refine ⟨fun hv hd => ?_, fun hne _ _ hv hin => ?_, fun _ => hvalue⟩
      · obtain ⟨rfl, rfl⟩ := honly hv (Phase.device_inside hd)
        rw [hout, show φ.device = _ from hd]
        rfl
      · obtain ⟨rfl, rfl⟩ := honly hv hin
        rw [hout] at hne
        simpa [Option.isSome_iff_ne_none] using hne
  | flashDone r status =>
      obtain rfl : r = p := he
      obtain ⟨w, hw, hdone⟩ := Option.bind_eq_some_iff.mp hs
      obtain rfl := Option.some.inj (hp.symm.trans hw)
      obtain ⟨d, ψ, -, hψ, rfl⟩ := flashDone_device hdone
      have hnone := outstanding_snoc tr ⟨k, .flashDone r status,
        (k.setVm (k.vm.answer d status)).setPhase r u ψ⟩
      refine ⟨fun hv hd => ?_, fun hne => absurd hnone hne, fun hne => absurd hnone hne⟩
      obtain ⟨rfl, hφ⟩ := honly hv (Phase.device_inside hd)
      obtain rfl := Option.some.inj ((Sys.setPhase_self ..).symm.trans hv)
      cases hψ.symm.trans hd
  | root _ | spawn _ _ | store _ _ _ _ | refill _ _ | fault _ _ | except _ _ => cases he

theorem step (h : OneCommand tr k) (hl : k.Locks) (hs : Phase3.step k e = some k') :
    OneCommand (tr ++ [⟨k, e, k'⟩]) k' := by
  have hdtp := (step_outcome hs).dtp
  have hle := hl.value_le
  cases (step_outcome hs).queueMove with
  | @acquire p u he hp hu hk' =>
      subst he hk'
      have hno : ¬ k.Inside p := by
        rw [inside_iff hp, hu]
        exact Bool.false_ne_true
      have hquiet : ∀ r, OwnStep r (.next p) → ¬ k.Inside r := by
        rintro r rfl
        exact hno
      refine h.keep (afterEntry_of_quiet hs (fun r hr hin => absurd hin (hquiet r hr)) _) rfl
        (fun r v hv hin => ?_) fun hne => ?_
      · rcases Sys.of_setPhase hv with ⟨rfl, rfl⟩ | ⟨-, hv⟩
        · -- the lock was free
          split at hin
          · cases hin
          next hpass =>
            refine .inr ⟨by rw [if_neg hpass]; rfl, ?_⟩
            by_contra hne
            exact h.locked hne (by omega)
        · exact .inl hv
      · have hne1 := h.locked hne
        show k.swapSem.value - 1 ≠ 1
        omega
  | @release p u he hp hu hk' =>
      subst he hk'
      have hnone : outstanding tr = none :=
        h.none_of_inside hp (by rw [hu]; rfl) (by rw [hu]; rfl)
      have hself : (k.verhogenSwap p u).proc p = some { u with phase := .user } :=
        Sys.setPhase_self ..
      refine h.keep (afterEntry_of_quiet hs ?_ _) rfl (fun r v hv hin => ?_)
        fun hne => absurd hnone hne
      · rintro r rfl -
        rw [inside_iff hself]
        exact ⟨rfl, Bool.false_ne_true⟩
      · rcases verhogenSwap_proc hl hv with ⟨rfl, rfl⟩ | ⟨-, hv | ⟨w, -, -, rfl⟩⟩
        · cases hin
        · exact .inl hv
        · exact .inr ⟨rfl, hnone⟩
  | @vanish p u he hp hu _ hk' =>
      subst he hk'
      refine h.keep (afterEntry_of_quiet hs ?_ _) rfl (fun r v hv _ => ?_) h.locked
      · rintro r rfl -
        exact ⟨rfl, not_inside (Sys.termProcess_self k p)⟩
      · exact .inl (Sys.of_termProcess hv).2
  | clear he hk' =>
      subst hk'
      exact h.keep (afterEntry_of_quiet hs (fun r hr => absurd hr (he r)) _) rfl nofun
        fun hne => hl.clear_value (h.locked hne)
  | within he hp hu _ _ hsem _ hproc => exact h.within hl hs he hp hu hsem hproc
  | without he hsem _ _ hin hkeep =>
      refine h.keep (afterEntry_of_quiet hs (fun r hr hr' => absurd hr' (he r hr)) _) (hdtp he)
        (fun r v hv hvin => .inl ?_) fun hne => hsem ▸ h.locked hne
      rw [← hkeep r ((hin r).mp ⟨v, hv, hvin⟩)]
      exact hv

end OneCommand

end

theorem Run.oneCommand {m : Machine} {tr : List Entry} {k : Sys} (h : Run m tr k) :
    k.Locks ∧ OneCommand tr k := by
  refine h.invariant (P := fun tr k => k.Locks ∧ OneCommand tr k) (G := fun _ => True)
    (fun _ _ => trivial) ⟨m.start_locks, ?_⟩ fun hP hs _ => ?_
  · exact ⟨nofun, fun hne => absurd rfl hne, fun hne => absurd rfl hne⟩
  · exact ⟨((step_outcome hs).lockMove hP.1).locks hP.1, hP.2.step hP.1 hs⟩

/-- In every run, a flash device is given a command only when no flash device
has one to answer, and every answer is to the command that its process has given
last, whose registers nobody has changed. -/
theorem flash_one_at_a_time {m : Machine} {tr₁ tr₂ : List Entry} {x : Entry} {k : Sys}
    (h : Run m (tr₁ ++ x :: tr₂) k) :
    (∀ c, commanded x = some c → outstanding tr₁ = none) ∧
      ∀ p status, x.event = .flashDone p status → ∃ d,
        outstanding tr₁ = some ⟨p, d, x.before.vm.dtp d⟩ ∧
          x.after.vm = x.before.vm.answer d status := by
  obtain ⟨s, e, s'⟩ := x
  obtain ⟨hrun, hs, -⟩ := h.split
  obtain ⟨-, hone⟩ := Run.oneCommand hrun
  refine ⟨fun c hx => ?_, ?_⟩
  · obtain ⟨p, u, -, hp, hin, hd⟩ := commanded_inside hs hx
    exact hone.none_of_inside hp hin hd
  · rintro p status rfl
    obtain ⟨u, hp, hdone⟩ := Option.bind_eq_some_iff.mp hs
    obtain ⟨d, φ, hd, -, hk'⟩ := flashDone_device hdone
    exact ⟨d, hone.waits hp hd, congrArg Sys.vm hk'⟩

/-- The first of three U-procs has its page, and the second asks its device for one. -/
def bothRead : List Event := threeFault ++ firstServed ++ List.replicate 4 (.next 2)

theorem flash_one_at_a_time_bothRead : ∃ tr x k c, Run .zero (tr ++ [x]) k ∧
    (tr ++ [x]).map Trace.Entry.event = bothRead ∧ commanded x = some c ∧ c.process = 2 ∧
      c.device = 1 ∧ outstanding tr = none := by
  have hany : (Trace.exec step Machine.zero.start bothRead).any (fun z =>
      z.1.getLast?.any fun x => (commanded x).any fun c => c.process = 2 ∧ c.device = 1) =
        true := by
    decide +kernel
  obtain ⟨tr, k, hrun, hevents, h⟩ := Trace.run_of_any hany
  obtain ⟨x, hlast, h⟩ := (Option.any_eq_true _ _).mp h
  obtain ⟨c, hx, h⟩ := (Option.any_eq_true _ _).mp h
  obtain ⟨hp, hd⟩ := of_decide_eq_true h
  obtain ⟨tr, rfl⟩ := List.getLast?_eq_some_iff.mp hlast
  exact ⟨tr, x, k, c, hrun, hevents, hx, hp, hd, (flash_one_at_a_time hrun).1 c hx⟩

end Pandos.Phase3
