import Reclaim.Proofs.Lasting

/-!
# What leaves the pace alone

A step of a hook upsets a run if it completes a collection, has the thresholds changed, or replaces
the collector (`Op.upsets`). `Machine.Paces` says of two machines that a property of the pace is
handed on from one to the other unless a step in between upsets the run, which is a relation that
lasts (`Machine.lasting_paces`). Inside of a pass no other one starts, so all hooks uphold it there
(`Hooks.inPass_paces`).
-/

set_option autoImplicit false

namespace Reclaim

variable {α β : Type}

/-! ## What upsets a run -/

/-- The operation has completed a collection, whether it reports resurrected objects or not, has
replaced the thresholds by other ones than `t`, or has replaced the collector. -/
def Op.upsets (t : Thresholds) : Op → Except Fault Answer → Bool
  | .call (.collect _), .ok _ => true
  | .call (.collect _), .error (.resurrectionDetected _ _) => true
  | .call (.setThresholds counts), .ok _ => counts != t.counts
  | .raw (.attach _), _ => true
  | .raw .detach, _ => true
  | _, _ => false

/-- The event is the end of a step that upsets the run. -/
def Event.upsets (t : Thresholds) : Event → Bool
  | .performed op _ outcome => op.upsets t outcome
  | _ => false

variable {t : Thresholds} {I J K : Pace → Prop} {s s' s'' : Machine} {op : Op} {x : ObjectId}

namespace Machine

/-- Some step in the journal has upset the run. -/
def Upset (t : Thresholds) (s : Machine) : Prop :=
  ∃ m ∈ s.journal, m.event.upsets t = true

/-- There is a collector, and its pace has a property. -/
def Goes (I : Pace → Prop) (s : Machine) : Prop := ∃ p, s.memory.pace? = some p ∧ I p

/-- The journal goes on, and unless a step upsets the run, one property of the pace is followed by
another. -/
structure Paces (t : Thresholds) (I J : Pace → Prop) (s s' : Machine) : Prop where
  journal : s.journal ⊆ s'.journal
  goes : ¬ s'.Upset t → s.Goes I → s'.Goes J

theorem Upset.mono (upset : s.Upset t) (journal : s.journal ⊆ s'.journal) : s'.Upset t := by
  obtain ⟨m, mem, upsets⟩ := upset
  exact ⟨m, journal mem, upsets⟩

theorem Goes.congr (goes : s.Goes I) (same : s'.memory.pace? = s.memory.pace?) : s'.Goes I := by
  obtain ⟨p, hp, holds⟩ := goes
  exact ⟨p, same.trans hp, holds⟩

theorem Paces.of_same (journal : s.journal ⊆ s'.journal)
    (same : s'.memory.pace? = s.memory.pace?) : s.Paces t I I s' :=
  ⟨journal, fun _ goes => goes.congr same⟩

theorem Paces.refl (s : Machine) : s.Paces t I I s := .of_same (List.Subset.refl _) rfl

theorem Paces.trans (one : s.Paces t I J s') (two : s'.Paces t J K s'') : s.Paces t I K s'' where
  journal := List.Subset.trans one.journal two.journal
  goes calm goes := two.goes calm (one.goes (fun upset => calm (upset.mono two.journal)) goes)

theorem paces_log (s : Machine) (event : Event) : s.Paces t I I (s.log event) :=
  .of_same (List.subset_cons_self _ _) rfl

/-- Properties of the pace are handed on by whatever is no step of a hook. -/
theorem lasting_paces : Lasting (Paces t I I) where
  trans one two := one.trans two
  aside journal _ same := .of_same (by rw [journal]; exact List.Subset.refl _) same
  log s _ _ := s.paces_log _

end Machine

open Act

/-- What is due is known from the books. -/
theorem Pass.due_of_aftermath {hooks : PassHooks} {g : Generation} {result : CycleReport}
    {due : Option Generation} {outcome : PassOutcome}
    (run : aftermath hooks g result due s = .ok outcome s') : outcome.due = due := by
  obtain ⟨-, _, -, run⟩ := exists_of_bind run
  obtain ⟨-, _, -, run⟩ := exists_of_bind run
  obtain ⟨-, _, -, run⟩ := exists_of_bind run
  cases run
  rfl

/-! ## Operations inside of passes -/

/-- Unless the operation has upset the run, a property of the pace is handed on. -/
structure Op.Minds (t : Thresholds) (I : Pace → Prop) (op : Op) (outcome : Except Fault Answer)
    (s s' : Machine) : Prop where
  journal : s.journal ⊆ s'.journal
  paces : op.upsets t outcome = false → s.Paces t I I s'

theorem Machine.Paces.minds {outcome : Except Fault Answer} (paces : s.Paces t I I s') :
    op.Minds t I outcome s s' := ⟨paces.journal, fun _ => paces⟩

/-- When a step of a hook is noted, it is known whether it has upset the run. -/
theorem Op.Minds.performed {outcome : Except Fault Answer} (minds : op.Minds t I outcome s s') :
    s.Paces t I I (s'.log (.performed op s.memory outcome)) where
  journal := List.Subset.trans minds.journal (s'.paces_log (t := t) (I := I) _).journal
  goes calm goes := by
    have paces := minds.paces (Bool.eq_false_iff.mpr fun upsets =>
      calm ⟨_, List.mem_cons_self, upsets⟩)
    exact (paces.trans (s'.paces_log _)).goes calm goes

namespace Host

variable {hooks : Hooks}

/-- Thresholds that are replaced by the same ones leave the pace alone. -/
theorem setThresholds_minds (uniform : ∀ p, I p → p.thresholds = t) (counts : PerGeneration Nat)
    {self : ObjectId} {outcome : Except Fault Answer}
    (run : attempt (perform hooks self (.call (.setThresholds counts))) s = .ok outcome s') :
    (Op.call (.setThresholds counts)).Minds t I outcome s s' := by
  have answered : perform hooks self (.call (.setThresholds counts)) s =
      (setThresholds counts >>= fun _ => pure .done) s := rfl
  rw [attempt_apply, answered, bind_apply] at run
  rcases configure_cases (fun c => do return { c with tracker := ← c.tracker.setThresholds counts })
    s with ⟨e, refused⟩ | ⟨c, c', hc, checked, configured⟩
  · rw [setThresholds, refused] at run
    cases run
    exact (Machine.Paces.refl s).minds
  · rw [setThresholds, configured] at run
    cases run
    obtain ⟨tracker, replaced, checked⟩ := Heap.exists_of_bind checked
    obtain ⟨thresholds, accepted, replaced⟩ := Heap.exists_of_bind replaced
    cases replaced
    cases checked
    refine ⟨List.Subset.refl _, fun calm => ⟨List.Subset.refl _, fun _ goes => ?_⟩⟩
    obtain ⟨p, hp, holds⟩ := goes
    rw [Memory.pace?, hc, Option.map_some, Option.some.injEq] at hp
    -- the new thresholds are those that the collector has already
    have before : c.tracker.thresholds = t :=
      (congrArg Pace.thresholds hp).trans (uniform p holds)
    have given : counts = t.counts := bne_eq_false_iff_eq.mp calm
    have replaced : thresholds = c.tracker.thresholds := by
      rw [before]
      exact Thresholds.eq_of_counts ((Thresholds.counts_of_ofCounts accepted).trans given)
    refine ⟨p, ?_, holds⟩
    show Option.map _ (Option.map _ s.memory.collector) = _
    rw [hc, replaced, ← hp]
    rfl

/-- The sequences that a host keeps are no matter of the pace. -/
theorem keep_paces (slot : Nat) (q : Snapshot) :
    (modify fun s => { s with snapshots := s.snapshots.insert slot q } : Act Unit).Upholds
      (Machine.Paces t I I) :=
  fun s => always_of_ok (modify_apply _ s) (.of_same (List.Subset.refl _) rfl)

theorem snapshot_paces (slot : Nat) : (snapshot slot).Upholds (Machine.Paces t I I) :=
  have W := Machine.lasting_paces
  W.bind (W.still still_collector) fun _ => W.answer (keep_paces slot _) _

theorem advance_paces {α : Type} (slot : Nat) (take : Snapshot → Heap → α × Snapshot) :
    (advance slot take).Upholds (Machine.Paces t I I) :=
  have W := Machine.lasting_paces
  W.bind (W.still (still_snapshotAt slot)) fun _ => W.bind (W.still still_heap) fun _ =>
    W.answer (keep_paces slot _) _

/-- An access behind the heap's back leaves the pace alone, unless it replaces the collector. -/
theorem raw_minds (F : hooks.finalization.Upholds (Machine.Paces t I I)) {self : ObjectId}
    {r : RawCall} {outcome : Except Fault Answer}
    (run : attempt (perform hooks self (.raw r)) s = .ok outcome s') :
    (Op.raw r).Minds t I outcome s s' := by
  cases plain : (Op.raw r).isPlain with
  | true => exact ((Machine.lasting_paces.raw F plain self).attempt.of_ok (s := s) run).minds
  | false =>
    cases r with
    | attach settings =>
      refine ⟨?_, nofun⟩
      cases started : Collector.start settings <;>
        simp only [perform, raw, attach, attempt_apply, bind_apply, memory_apply, setMemory_apply,
          started, ofExcept_ok, ofExcept_error, pure_apply] at run <;>
        cases run <;> exact List.Subset.refl _
    | detach =>
      cases run
      exact ⟨List.Subset.refl _, nofun⟩
    | _ => cases plain

/-- What upsets a run is a call that sets off hooks, new thresholds or an access behind the heap's
back. -/
theorem perform_minds (uniform : ∀ p, I p → p.thresholds = t) {self : ObjectId}
    {outcome : Except Fault Answer}
    (calls : ∀ c, op = .call c → c.setsOff = true → op.Minds t I outcome s s')
    (raws : ∀ r, op = .raw r → op.Minds t I outcome s s')
    (run : attempt (perform hooks self op) s = .ok outcome s') : op.Minds t I outcome s s' := by
  have W := Machine.lasting_paces (t := t) (I := I)
  have minds (upholds : (perform hooks self op).Upholds (Machine.Paces t I I)) :
      op.Minds t I outcome s s' := (upholds.attempt.of_ok run).minds
  cases op with
  | call c =>
    cases sets : c.setsOff with
    | true => exact calls c rfl sets
    | false =>
      cases plain : (Op.call c).isPlain with
      | true => exact minds (W.quietCall plain sets self)
      | false =>
        cases c with
        | setThresholds counts => exact setThresholds_minds uniform counts run
        | snapshot slot => exact minds (W.answer (snapshot_paces slot) _)
        | snapshotNext slot | snapshotRemaining slot =>
          exact minds (W.answer (advance_paces slot _) _)
        | _ => cases plain
  | ask q => exact minds (W.ask self q)
  | raw r => exact raws r rfl
  | setFinalizer id script => exact minds (W.answer (W.edit _) _)
  | addCallback phase script => exact minds (W.answer (W.addCallback phase script) _)

/-- What an operation of a hook does, if it starts no pass that changes the pace. -/
theorem perform_minds_inPass (uniform : ∀ p, I p → p.thresholds = t)
    (H : hooks.Upholds (Machine.Paces t I I)) {self : ObjectId} {outcome : Except Fault Answer}
    (run : attempt (perform hooks self op) s = .ok outcome s') : op.Minds t I outcome s s' := by
  refine perform_minds uniform (fun c e sets => ?_) (fun r e => ?_) run <;> subst e
  · exact ((Machine.lasting_paces.loudCall H sets self).attempt.of_ok run).minds
  · exact raw_minds H.finalization run

theorem runScript_paces (uniform : ∀ p, I p → p.thresholds = t)
    (H : hooks.Upholds (Machine.Paces t I I)) (self : ObjectId) (script : Script) :
    (runScript hooks self script).Upholds (Machine.Paces t I I) :=
  Machine.lasting_paces.runScript (fun run => (perform_minds_inPass uniform H run).performed) script

end Host

namespace Hooks

/-- Inside of a pass every property of the pace is handed on. -/
theorem inPass_paces (uniform : ∀ p, I p → p.thresholds = t) (n : Nat) :
    (inPass n).Upholds (Machine.Paces t I I) := by
  induction n with
  | zero => exact ⟨fun _ _ => Machine.lasting_paces.starve, nofun⟩
  | succ n ih => exact ⟨Host.runScript_paces uniform ih, nofun⟩

theorem ofPass_paces (uniform : ∀ p, I p → p.thresholds = t) (n : Nat) :
    (ofPass n).Upholds (Machine.Paces t I I) where
  finalization := (inPass_paces uniform n).finalization
  callback := Host.runScript_paces uniform (inPass_paces uniform n) 0

end Hooks

end Reclaim
