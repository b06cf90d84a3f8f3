/-
# `Pandos.Phase3.LockQueue` — who gets `swapSem`, and when

U-procs get into the pager in the order in which they have called
`P(swapSem)`, in every run until the root process ends them all
(`swap_in_order`).

As long as every page the pager looks for is found, whoever waits gets in
(`swap_bounded_wait`): somebody is inside and can go on, ten steps of those who
are inside bring the queue one place forward, and nothing takes it back.  What
the others do meanwhile does not matter, and they may well end where a refill
finds no page; only a U-proc that ends inside the pager keeps `swapSem` down
for good, and that is what `PageFound` excludes.
-/
import Pandos.Phase3.Recycling
import Pandos.Phase3.Termination

namespace Pandos.Phase3

open Semaphore

/-! ## Arrivals and entries -/

/-- Who calls `P(swapSem)` in a step. -/
def arrives (x : Entry) : Option PcbPtr :=
  match x.event with
  | .next p => (x.before.proc p).bind fun u => if u.phase = .acquiring then some p else none
  | .root _ | .spawn _ _ | .store _ _ _ _ | .refill _ _ | .fault _ _ | .except _ _
  | .flashDone _ _ => none

def Sys.inside (k : Sys) (r : PcbPtr) : Bool := (k.proc r).any fun u => u.phase.inside

/-- Who gets inside in a step. -/
def enters (x : Entry) : Option PcbPtr :=
  (List.finRange maxProc).find? fun r => !x.before.inside r && x.after.inside r

def arrivals (tr : List Entry) : List PcbPtr := tr.filterMap arrives

def entries (tr : List Entry) : List PcbPtr := tr.filterMap enters

/-! ## Steps -/

/-- The steps of a process inside that are left up to its `V`. -/
def Stage.left : Stage → Nat
  | .chosen => 8
  | .invalidated => 7
  | .writing _ => 6
  | .vacated => 5
  | .reading _ => 4
  | .loaded => 3
  | .recorded => 2

def Phase.left : Phase → Nat
  | .holding => 10
  | .found _ => 9
  | .paging _ _ σ => σ.left
  | .mapped => 1
  | .user | .acquiring | .waiting | .terminating | .deallocated | .notified | .stray => 0

/-- The event is a step of `r`, or the answer `r` waits for. -/
def OwnStep (r : PcbPtr) : Event → Prop
  | .next p | .flashDone p _ => p = r
  | .root _ | .spawn _ _ | .store _ _ _ _ | .refill _ _ | .fault _ _ | .except _ _ => False

/-- The next step of whoever is inside. -/
def HolderStep (x : Entry) : Bool :=
  match x.event with
  | .next r | .flashDone r _ => x.before.inside r
  | .root _ | .spawn _ _ | .store _ _ _ _ | .refill _ _ | .fault _ _ | .except _ _ => false

/-- The page the pager looks for is found. -/
def PageFound (x : Entry) : Prop :=
  ∀ p u, x.event = .next p → x.before.proc p = some u → u.phase = .holding →
    getMissingPageFromSupp (x.before.vm.supp u.supp) ≠ none

/-- The next step of `r` is possible, or its device has to answer first. -/
def Sys.CanStep (k : Sys) (r : PcbPtr) : Prop :=
  (step k (.next r)).isSome ∨ ∀ status, (step k (.flashDone r status)).isSome

/-- What a step does to those who wait for the lock. -/
inductive QueueMove (k : Sys) (e : Event) (k' : Sys) : Prop where
  | acquire {p u} (he : e = .next p) (hp : k.proc p = some u) (hu : u.phase = .acquiring)
      (hk : k' = k.passerenSwap p u)
  | release {p u} (he : e = .next p) (hp : k.proc p = some u) (hu : u.phase = .mapped)
      (hk : k' = k.verhogenSwap p u)
  | vanish {p u} (he : e = .next p) (hp : k.proc p = some u) (hu : u.phase = .holding)
      (hmiss : getMissingPageFromSupp (k.vm.supp u.supp) = none) (hk : k' = k.termProcess p)
  | clear (hx : ∀ r, ¬ OwnStep r e) (hk : k' = k.termAll)
  | within {p u φ} (he : OwnStep p e) (hp : k.proc p = some u) (hu : u.phase.inside = true)
      (hφ : φ.inside = true) (hleft : φ.left < u.phase.left) (hsem : k'.swapSem = k.swapSem)
      (hroot : k'.root = k.root) (hproc : k'.proc = (k.setPhase p u φ).proc)
  | without (he : ∀ r, OwnStep r e → ¬ k.Inside r) (hsem : k'.swapSem = k.swapSem)
      (hroot : k.root = .ended → k'.root = .ended) (harr : arrives ⟨k, e, k'⟩ = none)
      (hin : ∀ r, k'.Inside r ↔ k.Inside r) (hkeep : ∀ r, k.Inside r → k'.proc r = k.proc r)

section
variable {k k' : Sys} {p r : PcbPtr} {u : Uproc} {e : Event} {tr : List Entry}

theorem Sys.inside_eq_true : k.inside r = true ↔ k.Inside r := by
  unfold Sys.inside Sys.Inside
  cases k.proc r <;> simp

theorem arrives_next (k' : Sys) (hp : k.proc p = some u) :
    arrives ⟨k, .next p, k'⟩ = if u.phase = .acquiring then some p else none := by
  simp only [arrives, hp, Option.bind_some]

theorem holderStep_of_not (h : ∀ r, OwnStep r e → ¬ k.Inside r) :
    HolderStep ⟨k, e, k'⟩ = false := by
  cases e with
  | next r =>
      exact Bool.eq_false_iff.mpr fun hr => h r rfl (Sys.inside_eq_true.mp hr)
  | flashDone r status =>
      exact Bool.eq_false_iff.mpr fun hr => h r rfl (Sys.inside_eq_true.mp hr)
  | root _ | spawn _ _ | store _ _ _ _ | refill _ _ | fault _ _ | except _ _ => rfl

namespace QueueMove

theorem stay (he : ∀ r, ¬ OwnStep r e) (harr : arrives ⟨k, e, k'⟩ = none)
    (hsem : k'.swapSem = k.swapSem) (hroot : k.root = .ended → k'.root = .ended)
    (hproc : k'.proc = k.proc) : QueueMove k e k' :=
  .without (fun r hr => absurd hr (he r)) hsem hroot harr
    (fun _ => inside_of_proc (by rw [hproc])) fun _ _ => by rw [hproc]

/-- A process begins, moves or ends outside. -/
theorem other (he : ∀ r, OwnStep r e → r = p) (harr : arrives ⟨k, e, k'⟩ = none)
    (hsem : k'.swapSem = k.swapSem) (hroot : k.root = .ended → k'.root = .ended)
    (hother : ∀ r, r ≠ p → k'.proc r = k.proc r) (hp : ¬ k.Inside p) (hp' : ¬ k'.Inside p) :
    QueueMove k e k' := by
  refine .without (fun r hr => he r hr ▸ hp) hsem hroot harr (fun r => ?_) fun r hr => ?_
  · rcases eq_or_ne r p with rfl | hne
    · exact iff_of_false hp' hp
    · exact inside_of_proc (hother r hne)
  · rcases eq_or_ne r p with rfl | hne
    · exact absurd hr hp
    · exact hother r hne

theorem create {asid : Word} {supp : SuppPtr} (pool : Pool) (he : ∀ r, ¬ OwnStep r e)
    (harr : arrives ⟨k, e, k'⟩ = none) (hp : k.proc p = none) (hsem : k'.swapSem = k.swapSem)
    (hroot : k.root = .ended → k'.root = .ended)
    (hproc : k'.proc = (k.create p asid supp pool).proc) : QueueMove k e k' := by
  refine other (fun r hr => absurd hr (he r)) harr hsem hroot (fun r hr => ?_) (not_inside hp) ?_
  · rw [hproc]
    exact k.create_of_ne p asid supp pool hr
  · rw [inside_iff (hproc ▸ k.create_self p asid supp pool)]
    exact Bool.false_ne_true

theorem outside {φ : Phase} (he : ∀ r, OwnStep r e → r = p) (harr : arrives ⟨k, e, k'⟩ = none)
    (hp : k.proc p = some u) (hu : u.phase.inside = false) (hφ : φ.inside = false)
    (hsem : k'.swapSem = k.swapSem) (hroot : k.root = .ended → k'.root = .ended)
    (hproc : k'.proc = (k.setPhase p u φ).proc) : QueueMove k e k' := by
  refine other he harr hsem hroot (fun r hr => ?_) ?_ ?_
  · rw [hproc]
    exact Sys.setPhase_of_ne k p u φ hr
  · rw [inside_iff hp, hu]
    exact Bool.false_ne_true
  · rw [inside_iff (hproc ▸ Sys.setPhase_self k p u φ)]
    exact hφ ▸ Bool.false_ne_true

theorem gone (he : ∀ r, OwnStep r e → r = p) (harr : arrives ⟨k, e, k.termProcess p⟩ = none)
    (hp : k.proc p = some u) (hu : u.phase.inside = false) : QueueMove k e (k.termProcess p) := by
  refine other he harr rfl id (fun r hr => Sys.termProcess_of_ne k p hr) ?_
    (not_inside (Sys.termProcess_self k p))
  rw [inside_iff hp, hu]
  exact Bool.false_ne_true

end QueueMove

theorem Outcome.queueMove (h : Outcome k e k') : QueueMove k e k' := by
  have harr : ∀ {p u} (k' : Sys), k.proc p = some u → u.phase ≠ .acquiring →
      arrives ⟨k, .next p, k'⟩ = none := fun k' hp hu => (arrives_next k' hp).trans (if_neg hu)
  cases h with
  | @created p i supp pool hroot _ _ hp =>
      refine .create pool (fun _ => id) rfl hp rfl (fun he => ?_) rfl
      rw [hroot] at he
      cases he
  | @spawned _ _ _ pool _ _ hp =>
      exact .create pool (fun _ => id) rfl hp rfl id rfl
  | allCreated hroot _ | rootDown hroot _ | rootReturns hroot _ =>
      refine .stay (fun _ => id) rfl rfl (fun he => ?_) rfl
      rw [hroot] at he
      cases he
  | rootEnds _ => exact .clear (fun _ => id) rfl
  | store _ _ _ | refill _ _ _ _ _ => exact .stay (fun _ => id) rfl rfl id rfl
  | refillEnds hp hu _ _ _ =>
      exact .gone (fun _ => False.elim) rfl hp
        (by rw [hu]; rfl)
  | fault hp hu | except hp hu =>
      exact .outside (fun _ => False.elim) rfl
        hp (by rw [hu]; rfl) (Phase.ofFate_outside _ _).1 rfl id rfl
  | acquire hp hu => exact .acquire rfl hp hu rfl
  | missing hp hu hi => exact .vanish rfl hp hu hi rfl
  | gone hp hu => exact .gone (fun _ => Eq.symm) (harr _ hp (by rw [hu]; nofun)) hp (by rw [hu]; rfl)
  | dealloc hp hu =>
      exact .outside (fun _ => Eq.symm) (harr _ hp (by rw [hu]; nofun)) hp (by rw [hu]; rfl) rfl rfl
        id rfl
  | notify hp hu =>
      refine .outside (fun _ => Eq.symm) (harr _ hp (by rw [hu]; nofun)) hp (by rw [hu]; rfl) rfl rfl
        (fun he => ?_) rfl
      simp [Sys.notifyTerminated, he]
  | release hp hu => exact .release rfl hp hu rfl
  | find hp hu _ | choose hp hu | evict hp hu _ _ | skip hp hu _ | writeOut hp hu _
  | readIn hp hu | record hp hu | map hp hu =>
      exact .within rfl hp (by rw [hu]; rfl) rfl (by simp [hu, Phase.left, Stage.left])
        rfl rfl rfl
  | wrote hp hu | loaded hp hu =>
      exact .within rfl hp (by rw [hu]; rfl) rfl
        (by simp [hu, Phase.left, Stage.left]) rfl rfl rfl

/-! ## Order -/

theorem enters_eq {x : Entry} {o : Option PcbPtr}
    (h : ∀ r, ¬ x.before.Inside r ∧ x.after.Inside r ↔ o = some r) : enters x = o := by
  have hnew : ∀ r, (!x.before.inside r && x.after.inside r) = true ↔ o = some r := by
    intro r
    rw [Bool.and_eq_true, Bool.not_eq_true', Sys.inside_eq_true, ← Bool.not_eq_true,
      Sys.inside_eq_true]
    exact h r
  cases he : enters x with
  | some r =>
      have hr := List.find?_some (p := fun r => !x.before.inside r && x.after.inside r) he
      exact ((hnew r).mp hr).symm
  | none =>
      cases o with
      | none => rfl
      | some r => exact absurd ((hnew r).mpr rfl) (List.find?_eq_none.mp he r (List.mem_finRange r))

theorem enters_none {x : Entry} (h : ∀ r, x.after.Inside r → x.before.Inside r) :
    enters x = none :=
  enters_eq fun r => iff_of_false (fun hr => hr.1 (h r hr.2)) nofun

/-- The phase a `P` leads to. -/
theorem passerenSwap_inside (hp : k.proc p = some u) (hu : u.phase = .acquiring) :
    (k.passerenSwap p u).Inside r ↔ k.Inside r ∨ ¬ k.swapSem.value - 1 < 0 ∧ p = r := by
  rcases eq_or_ne r p with rfl | hr
  · have hself : (k.passerenSwap r u).proc r = some { u with
        phase := if k.swapSem.value - 1 < 0 then .waiting else .holding } := Sys.setPhase_self ..
    rw [inside_iff hself, inside_iff hp, hu]
    split
    next hv => exact iff_of_false nofun (by simp [Phase.inside, hv])
    next hv => exact iff_of_true rfl (.inr ⟨hv, rfl⟩)
  · have hother : (k.passerenSwap p u).proc r = k.proc r := Sys.setPhase_of_ne _ _ _ _ hr
    rw [inside_of_proc hother]
    exact (or_iff_left fun h => hr h.2.symm).symm

theorem verhogenSwap_inside (hl : k.Locks) (hp : k.proc p = some u) (hu : u.phase = .mapped) :
    (k.verhogenSwap p u).Inside r ↔ k.swapSem.queue.head? = some r := by
  have hself : (k.verhogenSwap p u).proc p = some { u with phase := .user } :=
    Sys.setPhase_self ..
  have hval : (k.verhogenSwap p u).swapSem.value = k.swapSem.value + 1 := rfl
  cases LockMove.verhogen (e := .next p) hl hp hu with
  | leave _ _ hi _ => exact hi r
  | same hsem _ _ | vanish _ _ _ hsem _ _ =>
      rw [hsem] at hval
      omega
  | pass _ hsem _ _ | wait _ hsem _ _ _ =>
      rw [hsem] at hval
      simp only [Sem.step] at hval
      omega
  | clear _ _ hproc => cases hself.symm.trans (hproc p)

/-- Those who have called `P` are those who have got in and those who wait, and
the last of those who have got in is the one inside. -/
structure QueueInv (tr : List Entry) (k : Sys) : Prop where
  line : k.swapSem.InLine (arrivals tr) (entries tr)
  last : ∀ p, k.Inside p → (entries tr).getLast? = some p

namespace QueueInv

theorem snoc {x : Entry} {a b : Option PcbPtr} (ha : arrives x = a) (hb : enters x = b)
    (hline : x.after.swapSem.InLine (arrivals tr ++ a.toList) (entries tr ++ b.toList))
    (hlast : ∀ p, x.after.Inside p → (entries tr ++ b.toList).getLast? = some p) :
    QueueInv (tr ++ [x]) x.after where
  line := by
    rw [arrivals, entries, Trace.filterMap_snoc tr ha, Trace.filterMap_snoc tr hb]
    exact hline
  last p hp := by
    rw [entries, Trace.filterMap_snoc tr hb]
    exact hlast p hp

theorem keep (h : QueueInv tr k) (ha : arrives ⟨k, e, k'⟩ = none) (hsem : k'.swapSem = k.swapSem)
    (hin : ∀ r, k'.Inside r → k.Inside r) : QueueInv (tr ++ [⟨k, e, k'⟩]) k' := by
  refine .snoc ha (enters_none hin) ?_ fun p hp => ?_
  · rw [Option.toList_none, List.append_nil, List.append_nil]
    exact hsem ▸ h.line
  · rw [Option.toList_none, List.append_nil]
    exact h.last p (hin p hp)

theorem acquire (h : QueueInv tr k) (hl : k.Locks) (hp : k.proc p = some u)
    (hu : u.phase = .acquiring) :
    QueueInv (tr ++ [⟨k, .next p, k.passerenSwap p u⟩]) (k.passerenSwap p u) := by
  have hin := fun r => passerenSwap_inside (r := r) hp hu
  have ha := (arrives_next (k.passerenSwap p u) hp).trans (if_pos hu)
  by_cases hv : k.swapSem.value - 1 < 0
  · have hsame : ∀ r, (k.passerenSwap p u).Inside r → k.Inside r := fun r hr =>
      ((hin r).mp hr).resolve_right fun h => h.1 hv
    refine .snoc ha (enters_none hsame) ?_ fun r hr => ?_
    · rw [Option.toList_none, List.append_nil]
      exact h.line.wait hv
    · rw [Option.toList_none, List.append_nil]
      exact h.last r (hsame r hr)
  · have hle := hl.value_le
    have hno := hl.free (by omega)
    have hself : ∀ r, (k.passerenSwap p u).Inside r → p = r := fun r hr =>
      ((hin r).mp hr).elim (fun h => absurd h (hno r)) And.right
    have hb : enters ⟨k, .next p, k.passerenSwap p u⟩ = some p := enters_eq fun r =>
      ⟨fun hr => congrArg some (hself r hr.2), fun hr => ⟨hno r, (hin r).mpr (.inr
        ⟨hv, Option.some.inj hr⟩)⟩⟩
    refine .snoc ha hb (h.line.pass hl hv) fun r hr => ?_
    rw [hself r hr]
    exact List.getLast?_concat

theorem release (h : QueueInv tr k) (hl : k.Locks) (hp : k.proc p = some u)
    (hu : u.phase = .mapped) :
    QueueInv (tr ++ [⟨k, .next p, k.verhogenSwap p u⟩]) (k.verhogenSwap p u) := by
  have hin := fun r => verhogenSwap_inside (r := r) hl hp hu
  have ha := (arrives_next (k.verhogenSwap p u) hp).trans (if_neg (by rw [hu]; exact nofun))
  have hb : enters ⟨k, .next p, k.verhogenSwap p u⟩ = k.swapSem.queue.head? := by
    refine enters_eq fun r => ⟨fun hr => (hin r).mp hr.2, fun hr => ⟨fun hr' => ?_, (hin r).mpr hr⟩⟩
    -- who waits is not inside
    obtain ⟨v, hv, hwait⟩ := (hl.queued r).mp (List.mem_of_head? hr)
    rw [inside_iff hv, hwait] at hr'
    exact Bool.false_ne_true hr'
  refine .snoc ha hb ?_ fun r hr => ?_
  · rw [Option.toList_none, List.append_nil]
    exact h.line.leave
  · rw [(hin r).mp hr]
    exact List.getLast?_concat

end QueueInv

theorem QueueMove.queueInv (h : QueueMove k e k') (hl : k.Locks) (hk : QueueInv tr k)
    (hroot : k'.root ≠ .ended) : QueueInv (tr ++ [⟨k, e, k'⟩]) k' := by
  cases h with
  | acquire he hp hu hk' =>
      subst he hk'
      exact hk.acquire hl hp hu
  | release he hp hu hk' =>
      subst he hk'
      exact hk.release hl hp hu
  | @vanish p u he hp hu hmiss hk' =>
      subst he hk'
      refine hk.keep ((arrives_next _ hp).trans (if_neg (by rw [hu]; exact nofun))) rfl fun r hr => ?_
      obtain ⟨v, hv, hin⟩ := hr
      exact ⟨v, (Sys.of_termProcess hv).2, hin⟩
  | clear _ hk' =>
      subst hk'
      exact absurd rfl hroot
  | @within p u φ he hp hu hφ _ hsem _ hproc =>
      have harr : arrives ⟨k, e, k'⟩ = none := by
        cases e with
        | next r =>
            obtain rfl := he
            refine (arrives_next k' hp).trans (if_neg fun h => ?_)
            rw [h] at hu
            exact Bool.false_ne_true hu
        | root _ | spawn _ _ | store _ _ _ _ | refill _ _ | fault _ _ | except _ _
        | flashDone _ _ => rfl
      refine hk.keep harr hsem fun r hr => ?_
      obtain ⟨v, hv, hin⟩ := hr
      rw [hproc] at hv
      rcases Sys.of_setPhase hv with ⟨rfl, -⟩ | ⟨-, hv⟩
      · exact ⟨u, hp, hu⟩
      · exact ⟨v, hv, hin⟩
  | without _ hsem _ harr hin _ => exact hk.keep harr hsem fun r => (hin r).mp

theorem QueueMove.root_ended (h : QueueMove k e k') (hroot : k.root = .ended) :
    k'.root = .ended := by
  cases h with
  | acquire _ _ _ hk' | release _ _ _ hk' | vanish _ _ _ _ hk' =>
      subst hk'
      exact hroot
  | clear _ hk' =>
      subst hk'
      rfl
  | within _ _ _ _ _ _ hroot' _ => exact hroot'.trans hroot
  | without _ _ hroot' _ _ _ => exact hroot' hroot

/-- U-procs get inside in the order in which they have called `P(swapSem)`, until
the root process ends them all: those who wait are the ones that are left, and
whoever is inside is the last who has got in. -/
theorem swap_in_order {m : Machine} (h : Run m tr k) (hroot : k.root ≠ .ended) :
    arrivals tr = entries tr ++ k.swapSem.queue ∧
      ∀ p, k.Inside p → (entries tr).getLast? = some p := by
  have hturn : k.Locks ∧ (k.root ≠ .ended → QueueInv tr k) := by
    refine h.invariant (P := fun tr k => k.Locks ∧ (k.root ≠ .ended → QueueInv tr k))
      (G := fun _ => True) (fun _ _ => trivial) ⟨m.start_locks, fun _ => ⟨rfl, ?_⟩⟩ ?_
    · rintro p ⟨u, hu, -⟩
      cases hu
    · rintro tr k e k' ⟨hl, hk⟩ hs -
      have hmove := (step_outcome hs).queueMove
      exact ⟨((step_outcome hs).lockMove hl).locks hl, fun hroot' =>
        hmove.queueInv hl (hk (mt hmove.root_ended hroot')) hroot'⟩
  exact ⟨(hturn.2 hroot).line, (hturn.2 hroot).last⟩

/-! ## Who is inside can go on -/

/-- What the swap table says of the frames that are written back. -/
structure Evictions (k : Sys) : Prop where
  occupied : ∀ i, frameIsOccupied (k.vm.swapTable i) = true → (k.vm.swapTable i).swPte.isSome
  invalidated : ∀ r v page frame, k.proc r = some v → v.phase = .paging page frame .invalidated →
    (k.vm.swapTable frame).swPte.isSome

theorem FrameMove.swPte (h : FrameMove k e k') (i : Fin poolSize) :
    k'.vm.swapTable i = k.vm.swapTable i ∨ (k'.vm.swapTable i).swPte.isSome := by
  cases h with
  | keep hvm => exact .inl (congrFun hvm i)
  | @record p u page frame hp hu =>
      rcases eq_or_ne i frame with rfl | hi
      · exact .inr (by simp [Vm.updateSwapTableEntry])
      · exact .inl (record_of_ne k.vm page hi)

/-- Only an eviction leads to the phase of one. -/
theorem Outcome.invalidated (h : Outcome k e k') (hl : k.Locks) {v : Uproc} {page : PtePtr}
    {frame : Fin poolSize} (hr : k'.proc r = some v)
    (hv : v.phase = .paging page frame .invalidated) :
    k.proc r = some v ∨ (k.vm.swapTable frame).swPte.isSome := by
  have hmove : ∀ {j : Sys} {p u φ}, j.proc = k.proc → (j.setPhase p u φ).proc r = some v →
      φ ≠ .paging page frame .invalidated → k.proc r = some v := by
    intro j p u φ hproc hr hφ
    rcases Sys.of_setPhase hr with ⟨rfl, rfl⟩ | ⟨-, hr⟩
    · exact absurd hv hφ
    · exact (congrFun hproc r).symm.trans hr
  have hcreate : ∀ {p asid supp} (pool), (k.create p asid supp pool).proc r = some v →
      k.proc r = some v := by
    intro p asid supp pool hr
    rcases eq_or_ne r p with rfl | hne
    · obtain rfl := Option.some.inj ((k.create_self r asid supp pool).symm.trans hr)
      cases hv
    · exact (k.create_of_ne p asid supp pool hne).symm.trans hr
  have hfate : ∀ {excState f}, Phase.ofFate excState f ≠ .paging page frame .invalidated := by
    intro excState f h
    have hout := (Phase.ofFate_outside excState f).1
    rw [h] at hout
    cases hout
  cases h with
  | @created _ _ _ pool _ _ _ _ | @spawned _ _ _ pool _ _ _ => exact .inl (hcreate pool hr)
  | allCreated _ _ | rootDown _ _ | rootReturns _ _ | store _ _ _ | refill _ _ _ _ _ =>
      exact .inl hr
  | rootEnds _ => cases hr
  | refillEnds _ _ _ _ _ | missing _ _ _ | gone _ _ => exact .inl (Sys.of_termProcess hr).2
  | fault _ _ | except _ _ => exact .inl (hmove rfl hr hfate)
  | acquire _ _ => exact .inl (hmove rfl hr (by split <;> exact nofun))
  | @evict p u page' frame' q hp hu hocc hq =>
      rcases Sys.of_setPhase hr with ⟨rfl, rfl⟩ | ⟨-, hr⟩
      · obtain ⟨rfl, rfl, -⟩ := Phase.paging.inj hv
        exact .inr (by rw [hq]; rfl)
      · exact .inl hr
  | find _ _ _ | choose _ _ | skip _ _ _ | writeOut _ _ _ | readIn _ _ | record _ _ | map _ _
  | dealloc _ _ | wrote _ _ | loaded _ _ => exact .inl (hmove rfl hr nofun)
  | notify _ _ => exact .inl (hmove (j := k.notifyTerminated) rfl hr nofun)
  | release hp hu =>
      rcases verhogenSwap_proc hl hr with ⟨-, rfl⟩ | ⟨-, hr | ⟨w, _, _, rfl⟩⟩
      · cases hv
      · exact .inl hr
      · cases hv

theorem Outcome.evictions (h : Outcome k e k') (hl : k.Locks) (hk : Evictions k) :
    Evictions k' where
  occupied i hi := by
    rcases h.frameMove.swPte i with hsame | hsome
    · rw [hsame] at hi ⊢
      exact hk.occupied i hi
    · exact hsome
  invalidated r v page frame hr hv := by
    have hsome : (k.vm.swapTable frame).swPte.isSome :=
      (h.invalidated hl hr hv).elim (fun hr => hk.invalidated r v page frame hr hv) id
    rcases h.frameMove.swPte frame with hsame | hsome'
    · rw [hsame]
      exact hsome
    · exact hsome'

theorem Sys.canStep_of_inside (hk : Evictions k) (hr : k.proc r = some u)
    (hu : u.phase.inside = true) : k.CanStep r := by
  have hnext : step k (.next r) = k.next r u := by simp [step, hr]
  have hdone : ∀ status, step k (.flashDone r status) = k.flashDone r u status := by
    simp [step, hr]
  cases hφ : u.phase with
  | user | acquiring | waiting | terminating | deallocated | notified | stray =>
      rw [hφ] at hu
      cases hu
  | holding =>
      refine .inl ?_
      rw [hnext, Sys.next, hφ]
      dsimp only
      split
      · rfl
      · rfl
  | found page | mapped => exact .inl (by simp [hnext, Sys.next, hφ])
  | paging page frame σ =>
      have hpage : k.next r u = k.pageIn r u page frame σ := by simp [Sys.next, hφ]
      cases σ with
      | chosen =>
          refine .inl ?_
          rw [hnext, hpage, Sys.pageIn]
          split
          next hocc => simpa using hk.occupied frame hocc
          next => rfl
      | invalidated =>
          refine .inl ?_
          rw [hnext, hpage, Sys.pageIn]
          simpa using hk.invalidated r u page frame hr hφ
      | vacated | loaded | recorded => exact .inl (by simp [hnext, hpage, Sys.pageIn])
      | writing d | reading d => exact .inr fun status => by simp [hdone, Sys.flashDone, hφ]

/-! ## Waiting -/

/-- Who waits is inside after less than `n` more steps of those who are inside. -/
def Sys.Nears (k : Sys) (p : PcbPtr) (n : Nat) : Prop :=
  ∃ r u, k.proc r = some u ∧ u.phase.inside = true ∧
    u.phase.left + 10 * k.swapSem.queue.idxOf p ≤ n

theorem Phase.left_pos {φ : Phase} (h : φ.inside = true) : 0 < φ.left := by
  cases φ with
  | user | acquiring | waiting | terminating | deallocated | notified | stray => cases h
  | holding | found _ | mapped => exact Nat.succ_pos _
  | paging _ _ σ =>
      cases σ with
      | chosen | invalidated | writing _ | vacated | reading _ | loaded | recorded =>
          exact Nat.succ_pos _

theorem Phase.left_le (φ : Phase) : φ.left ≤ 10 := by
  cases φ with
  | user | acquiring | waiting | terminating | deallocated | notified | stray | holding | found _
  | mapped => simp [Phase.left]
  | paging _ _ σ =>
      cases σ with
      | chosen | invalidated | writing _ | vacated | reading _ | loaded | recorded =>
          simp [Phase.left, Stage.left]

namespace Sys.Nears

variable {n : Nat}

theorem pos (h : k.Nears p n) : 0 < n := by
  obtain ⟨r, u, -, hin, hle⟩ := h
  have hpos := Phase.left_pos hin
  omega

/-- Somebody is inside, so `p` is at most its place in the queue away. -/
theorem start (hl : k.Locks) (hheld : k.swapSem.Held k.Inside) (hw : k.Waits p) :
    k.Nears p (10 * (k.swapSem.queue.idxOf p + 1)) := by
  have hp := (hl.queued p).mpr hw
  have hlen := hl.length
  have hpos := List.length_pos_of_mem hp
  obtain ⟨r, u, hr, hin⟩ := hheld (by omega)
  have hle := u.phase.left_le
  exact ⟨r, u, hr, hin, by omega⟩

/-- Those inside are where they were, and `p` is as far back as it was. -/
theorem keep (h : k.Nears p n) (hidx : k'.swapSem.queue.idxOf p = k.swapSem.queue.idxOf p)
    (hproc : ∀ r, k.Inside r → k'.proc r = k.proc r) : k'.Nears p n := by
  obtain ⟨r, u, hr, hin, hle⟩ := h
  exact ⟨r, u, (hproc r ⟨u, hr, hin⟩).trans hr, hin, hidx ▸ hle⟩

theorem release (h : k.Nears p (n + 1)) (hl : k.Locks) (hp : k.Waits p)
    (hr : k.proc r = some u) (hu : u.phase = .mapped) (hp' : (k.verhogenSwap r u).Waits p) :
    (k.verhogenSwap r u).Nears p n := by
  obtain ⟨z, w, hz, hin, hle⟩ := h
  obtain rfl : z = r := hl.unique ⟨w, hz, hin⟩ ⟨u, hr, by rw [hu]; rfl⟩
  obtain rfl := Option.some.inj (hz.symm.trans hr)
  have hmem := (hl.queued p).mpr hp
  obtain ⟨y, hy⟩ : ∃ y, k.swapSem.queue.head? = some y := by
    cases hq : k.swapSem.queue with
    | nil =>
        rw [hq] at hmem
        cases hmem
    | cons y l => exact ⟨y, rfl⟩
  obtain ⟨v, hv, hvin⟩ := (verhogenSwap_inside hl hz hu).mpr hy
  -- the one that is let in is not `p`, which still waits
  have hne : k.swapSem.queue.head? ≠ some p := by
    intro h
    obtain rfl := Option.some.inj (hy.symm.trans h)
    rw [waits_iff hv] at hp'
    rw [hp'] at hvin
    cases hvin
  have hidx := Sem.idxOf_up hmem hne
  have hle' := v.phase.left_le
  have hpos := Phase.left_pos hin
  refine ⟨y, v, hv, hvin, ?_⟩
  show v.phase.left + 10 * (k.swapSem.step .up).queue.idxOf p ≤ n
  omega

/-- A step of whoever is inside brings `p` nearer, and no other step takes it back. -/
theorem step (h : k.Nears p n) (hmove : QueueMove k e k') (hl : k.Locks) (hk : k.Waits p)
    (hk' : k'.Waits p) (hf : PageFound ⟨k, e, k'⟩) :
    k'.Nears p (n - (HolderStep ⟨k, e, k'⟩).toNat) := by
  have hmem := (hl.queued p).mpr hk
  cases hmove with
  | @acquire r u he hr hu hk' =>
      subst he hk'
      have hout : ¬ k.Inside r := by
        rw [inside_iff hr, hu]
        exact Bool.false_ne_true
      have hstep : HolderStep ⟨k, .next r, k.passerenSwap r u⟩ = false :=
        Bool.eq_false_iff.mpr (mt Sys.inside_eq_true.mp hout)
      rw [hstep]
      refine h.keep (Sem.idxOf_down hmem r) fun z hz => Sys.setPhase_of_ne _ _ _ _ ?_
      rintro rfl
      exact hout hz
  | @release r u he hr hu hk' =>
      subst he hk'
      have hstep : HolderStep ⟨k, .next r, k.verhogenSwap r u⟩ = true :=
        Sys.inside_eq_true.mpr ⟨u, hr, by rw [hu]; rfl⟩
      rw [hstep]
      have hpos := h.pos
      refine release (n := n - 1) ?_ hl hk hr hu hk'
      rwa [Nat.sub_add_cancel hpos]
  | vanish he hr hu hmiss _ => exact absurd hmiss (hf _ _ he hr hu)
  | clear _ hclear =>
      subst hclear
      obtain ⟨u, hu, -⟩ := hk'
      cases hu
  | @within r u φ he hr hu hφ hleft hsem _ hproc =>
      obtain ⟨z, w, hz, hin, hle⟩ := h
      obtain rfl : z = r := hl.unique ⟨w, hz, hin⟩ ⟨u, hr, hu⟩
      obtain rfl := Option.some.inj (hz.symm.trans hr)
      have hself : k'.proc z = some { w with phase := φ } := by
        rw [hproc]
        exact k.setPhase_self z w φ
      refine ⟨z, _, hself, hφ, ?_⟩
      have hone := Bool.toNat_le (HolderStep ⟨k, e, k'⟩)
      rw [hsem]
      show φ.left + _ ≤ _
      omega
  | without he hsem _ _ _ hkeep =>
      rw [holderStep_of_not he]
      exact h.keep (by rw [hsem]) hkeep

end Sys.Nears

/-- Whoever vanishes inside would leave the lock held by nobody. -/
theorem QueueMove.held (h : QueueMove k e k') (hl : k.Locks) (hf : PageFound ⟨k, e, k'⟩)
    (hroot : k'.root ≠ .ended) (hk : k.swapSem.Held k.Inside) : k'.swapSem.Held k'.Inside := by
  cases h with
  | acquire he hp hu hk' =>
      subst he hk'
      by_cases hv : k.swapSem.value - 1 < 0
      · exact Sem.Locks.held_wait hk hv fun r =>
          (passerenSwap_inside hp hu).trans (or_iff_left fun h => h.1 hv)
      · exact fun _ => ⟨_, (passerenSwap_inside hp hu).mpr (.inr ⟨hv, rfl⟩)⟩
  | release he hp hu hk' =>
      subst he hk'
      exact hl.held_leave ⟨_, hp, by rw [hu]; rfl⟩ fun r => verhogenSwap_inside hl hp hu
  | vanish he hp hu hmiss _ => exact absurd hmiss (hf _ _ he hp hu)
  | clear _ hk' =>
      subst hk'
      exact absurd rfl hroot
  | @within p u φ _ hp _ hφ _ _ _ hproc =>
      have hself : k'.proc p = some { u with phase := φ } := by
        rw [hproc]
        exact k.setPhase_self p u φ
      exact fun _ => ⟨p, _, hself, hφ⟩
  | without _ hsem _ _ hin _ =>
      intro hv
      rw [hsem] at hv
      obtain ⟨r, hr⟩ := hk hv
      exact ⟨r, (hin r).mpr hr⟩

/-- While a U-proc waits, somebody is inside and can go on, or its device has to
answer; and after ten steps of those inside for each place in the queue the
U-proc does not wait any more. -/
theorem swap_bounded_wait {m : Machine} {tr₀ : List Entry} (h₀ : Run m tr₀ k)
    (h : Trace.Run step k tr k') (hf : ∀ x ∈ tr₀ ++ tr, PageFound x) (hroot : k.root ≠ .ended)
    (hw : k.Waits p) (hstay : ∀ x ∈ tr, x.after.Waits p) :
    tr.countP HolderStep < 10 * (k.swapSem.queue.idxOf p + 1) ∧
      ∃ r, k'.Inside r ∧ k'.CanStep r := by
  obtain ⟨hl, hev, hheld⟩ : k.Locks ∧ Evictions k ∧
      (k.root ≠ .ended → k.swapSem.Held k.Inside) := by
    refine h₀.invariant (P := fun _ k => k.Locks ∧ Evictions k ∧
      (k.root ≠ .ended → k.swapSem.Held k.Inside)) (G := PageFound)
      (fun x hx => hf x (List.mem_append_left _ hx))
      ⟨m.start_locks, ⟨fun _ hi => ?_, nofun⟩, fun _ hv => absurd rfl hv⟩ ?_
    · cases hi
    · rintro _ k e k' ⟨hl, hev, hheld⟩ hs hfinds
      have hout := step_outcome hs
      have hmove := hout.queueMove
      exact ⟨(hout.lockMove hl).locks hl, hout.evictions hl hev, fun hroot' =>
        hmove.held hl hfinds hroot' (hheld (mt hmove.root_ended hroot'))⟩
  have hrun : k'.Locks ∧ Evictions k' ∧ k'.Waits p ∧
      k'.Nears p (10 * (k.swapSem.queue.idxOf p + 1) - tr.countP HolderStep) := by
    refine h.invariant (P := fun tr k' => k'.Locks ∧ Evictions k' ∧ k'.Waits p ∧
      k'.Nears p (10 * (k.swapSem.queue.idxOf p + 1) - tr.countP HolderStep))
      (G := fun x => PageFound x ∧ x.after.Waits p)
      (fun x hx => ⟨hf x (List.mem_append_right _ hx), hstay x hx⟩)
      ⟨hl, hev, hw, .start hl (hheld hroot) hw⟩ ?_
    rintro tr k e k' ⟨hl, hev, hw, hnear⟩ hs ⟨hfinds, hw'⟩
    have hout := step_outcome hs
    refine ⟨(hout.lockMove hl).locks hl, hout.evictions hl hev, hw', ?_⟩
    have hone : [(⟨k, e, k'⟩ : Entry)].countP HolderStep = (HolderStep ⟨k, e, k'⟩).toNat := by
      rw [List.countP_singleton]
      cases HolderStep ⟨k, e, k'⟩ with
      | false | true => rfl
    rw [List.countP_append, hone, ← Nat.sub_sub]
    exact hnear.step hout.queueMove hl hw hw' hfinds
  obtain ⟨-, hev', -, hnear⟩ := hrun
  have hpos := hnear.pos
  obtain ⟨r, u, hr, hin, -⟩ := hnear
  exact ⟨by omega, r, ⟨u, hr, hin⟩, Sys.canStep_of_inside hev' hr hin⟩

end

/-- The first of three U-procs is inside, and the other two wait. -/
def threeFault : List Event :=
  [1, 2, 3].map .root ++ [1, 2, 3].map (.fault · (firstFault 0)) ++ [1, 2, 3].map .next

/-- The first brings in its page, and lets in the second. -/
def firstServed : List Event :=
  [.next 1, .next 1, .next 1, .next 1, .flashDone 1 ready, .next 1, .next 1, .next 1]

theorem swap_in_order_firstServed : ∃ tr k, Run .zero tr k ∧
    tr.map Trace.Entry.event = threeFault ++ firstServed ∧ k.Inside 2 ∧
      arrivals tr = [1, 2, 3] ∧ k.swapSem.queue = [3] ∧
        arrivals tr = entries tr ++ k.swapSem.queue ∧
          ∀ p, k.Inside p → (entries tr).getLast? = some p := by
  have hany : (Trace.exec step Machine.zero.start (threeFault ++ firstServed)).any (fun x =>
      x.2.inside 2 = true ∧ arrivals x.1 = [1, 2, 3] ∧ x.2.swapSem.queue = [3] ∧
        x.2.root ≠ .ended) = true := by
    decide +kernel
  obtain ⟨tr, k, hrun, hevents, h⟩ := Trace.run_of_any hany
  obtain ⟨hin, harr, hq, hroot⟩ := of_decide_eq_true h
  exact ⟨tr, k, hrun, hevents, Sys.inside_eq_true.mp hin, harr, hq, swap_in_order hrun hroot⟩

def findsPages (x : Entry) : Bool :=
  decide (∀ p, ((x.before.proc p).all fun u => u.phase ≠ .holding ∨
    (getMissingPageFromSupp (x.before.vm.supp u.supp)).isSome) = true)

theorem pageFound_of_findsPages {x : Entry} (h : findsPages x = true) : PageFound x := by
  intro p u _ hp hu hmiss
  have hpages := (Option.all_eq_true _ _).mp (of_decide_eq_true h p) u hp
  rcases of_decide_eq_true hpages with hne | hsome
  · exact hne hu
  · rw [hmiss] at hsome
    cases hsome

/-- A fourth U-proc is created and ended, for an address in none of its pages,
while the first is served. -/
def servedMeanwhile : List Event := [.root 4, .refill 4 0x90000000] ++ firstServed

/-- All the time the third waits. -/
theorem swap_bounded_wait_servedMeanwhile : ∃ tr₀ tr k k', Run .zero tr₀ k ∧
    Trace.Run step k tr k' ∧ tr.map Trace.Entry.event = servedMeanwhile ∧
      k.swapSem.queue.idxOf 3 = 1 ∧ k'.proc 4 = none ∧
      tr.countP HolderStep = 8 ∧ tr.countP HolderStep < 10 * (k.swapSem.queue.idxOf 3 + 1) ∧
        ∃ r, k'.Inside r ∧ k'.CanStep r := by
  have hany : (Trace.exec step Machine.zero.start threeFault).any (fun x =>
      ((x.2.proc 3).any fun u => u.phase = .waiting) = true ∧ x.2.swapSem.queue.idxOf 3 = 1 ∧
        x.2.root ≠ .ended ∧ (Trace.exec step x.2 servedMeanwhile).any (fun y =>
          (y.2.proc 4).isNone = true ∧ y.1.countP HolderStep = 8 ∧
            (∀ z ∈ x.1 ++ y.1, findsPages z = true) ∧
            ∀ z ∈ y.1, ((z.after.proc 3).any fun u => u.phase = .waiting) = true) = true) = true := by
    decide +kernel
  obtain ⟨tr₀, k, hrun₀, -, h⟩ := Trace.run_of_any hany
  obtain ⟨hw, hidx, hroot, hany⟩ := of_decide_eq_true h
  obtain ⟨tr, k', hrun, hevents, h⟩ := Trace.run_of_any hany
  obtain ⟨hgone, hcount, hpages, hstay⟩ := of_decide_eq_true h
  have hwaits : ∀ {k : Sys}, ((k.proc 3).any fun u => u.phase = .waiting) = true → k.Waits 3 := by
    intro k h
    obtain ⟨u, hu, hφ⟩ := Option.any_eq_true .. |>.mp h
    exact ⟨u, hu, of_decide_eq_true hφ⟩
  exact ⟨tr₀, tr, k, k', hrun₀, hrun, hevents, hidx, Option.isNone_iff_eq_none.mp hgone, hcount,
    swap_bounded_wait hrun₀ hrun (fun z hz => pageFound_of_findsPages (hpages z hz)) hroot
      (hwaits hw) fun z hz => hwaits (hstay z hz)⟩

end Pandos.Phase3
