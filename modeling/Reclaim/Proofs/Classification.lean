import Reclaim.Proofs.CountingLaw

/-!
# What a pass makes of its candidates

Finalizers may free members that the first analysis has found unreachable, cut them loose or link
them to what is reached. When all of them have run, each of these members is accounted for once: it
has died, it is supported from outside and survives as resurrected, or it is reclaimed
(`Cycles.Course.classification`). This holds of every pass that a run of a host comes to, at
whatever moment the pass begins (`Machine.Attained.pass_classifies`); what the moments are is said by
`Machine.Attained.passes_begin`.
-/

set_option autoImplicit false

namespace Reclaim

open Machine

variable {sc : Scope} {b : Bool} {n : Nat} {L : Loose} {Q : ObjectId → Prop} {s t : Machine}
  {fin : Finalization} {xs : List ObjectId} {x : ObjectId}

namespace Cycles

/-- What becomes of members: some are reachable, and the others are unreachable until their
finalizers have run, which leaves the heap `finalized`. At the end of the collection it is
`after`. -/
structure Classification (members reachable unreachable : List ObjectId) (r : CycleReport)
    (finalized after : Heap) : Prop where
  members_perm : (reachable ++ unreachable).Perm members
  nodup : unreachable.Nodup
  /-- Every unreachable member is either collected or resurrected. -/
  perm : (r.collected ++ r.resurrected).Perm unreachable
  dead : ∀ x ∈ r.collected, after.get? x = none
  /-- Resurrected are those that were still live when the finalizers had run, and that the host or
  objects outside of these supported. -/
  resurrected_iff : ∀ x, x ∈ r.resurrected ↔
    finalized.Supported (unreachable.filter (finalized.contains ·)) x
  survivors_nodup : r.survivors.Nodup
  survivors_iff : ∀ x, x ∈ r.survivors ↔
    (∃ p, after.get? x = some p ∧ p.kind = .container) ∧ (x ∈ reachable ∨ x ∈ r.resurrected)

namespace Course

variable {g : Int} {options : PassOptions} (k : Course sc b L Q fin g xs options s)
include k

theorem members_perm (nodup : xs.Nodup) :
    (k.reachable ++ k.unreachable).Perm (members s.memory.heap xs) :=
  k.parted.perm (nodup.filter _)

theorem nodup_unreachable (nodup : xs.Nodup) : k.unreachable.Nodup :=
  k.parted.sub_unreachable.nodup (nodup.filter _)

/-- What has died, what is garbage and what is resurrected make up the unreachable members. -/
theorem perm (nodup : xs.Nodup) :
    (k.report.collected ++ k.report.resurrected).Perm k.unreachable := by
  have left := (k.nodup_unreachable nodup).filter (k.finalized.memory.heap.contains ·)
  have again : (k.garbage ++ k.report.resurrected).Perm
      (k.unreachable.filter (k.finalized.memory.heap.contains ·)) :=
    List.perm_append_comm.trans (k.again.perm left)
  rw [k.collected, List.append_assoc]
  refine (again.append_left _).trans (List.perm_append_comm.trans ?_)
  exact List.filter_append_perm (k.finalized.memory.heap.contains ·) k.unreachable

/-- Finalizers leave nothing loose that was not so before, so counts tell what is supported. -/
theorem resurrected_iff (A : At sc b L Q s) (nodup : xs.Nodup) : x ∈ k.report.resurrected ↔
    k.finalized.memory.heap.Supported
      (k.unreachable.filter (k.finalized.memory.heap.contains ·)) x := by
  have zero := (k.isolated A nodup).2
  have left := (k.nodup_unreachable nodup).filter (k.finalized.memory.heap.contains ·)
  rw [k.again.mem_reachable]
  exact Analysis.held_iff_supported k.finalizes.there.sound.balanced left fun x hx =>
    zero x (List.mem_filter.mp hx).1

/-- A collection that keeps no garbage classifies its members. -/
theorem classification (A : At sc b L Q s) (nodup : xs.Nodup)
    (discards : options.saveGarbage = false) :
    Classification (members s.memory.heap xs) k.reachable k.unreachable k.report
      k.finalized.memory.heap k.after.memory.heap := by
  have apart := (k.members_perm nodup).nodup_iff.mpr (nodup.filter _)
  obtain ⟨reachable, unreachable, disjoint⟩ := List.nodup_append'.mp apart
  have left := unreachable.filter (k.finalized.memory.heap.contains ·)
  have survivors : k.report.survivors =
      (k.reachable ++ k.report.resurrected).filter (k.after.memory.heap.contains ·) := by
    simp only [k.survivors, discards, Bool.false_eq_true, if_false, List.append_nil]
  refine ⟨k.members_perm nodup, unreachable, k.perm nodup,
    fun x => k.dead_of_collected A discards, fun x => k.resurrected_iff A nodup, ?_, fun x => ?_⟩
  · rw [survivors]
    have resurrected := (k.again.sub_reachable.nodup left)
    exact (reachable.append resurrected fun x hx hx' =>
      disjoint hx (k.unreachable_of_resurrected hx')).filter _
  · rw [survivors, List.mem_filter, contains_iff, List.mem_append, and_comm]
    refine and_congr_left fun mem => ⟨fun ⟨p, hp⟩ => ⟨p, hp, ?_⟩, fun ⟨p, hp, _⟩ => ⟨p, hp⟩⟩
    exact k.container_of_member A (mem.elim k.mem_of_reachable fun mem =>
      k.mem_of_unreachable (k.unreachable_of_resurrected mem)) hp

end Course

end Cycles

namespace Pass

/-- The course of a pass over `g` that begins at `t`, kept as data. -/
structure Trace (hooks : PassHooks) (g : Generation) (t : Machine) where
  /-- The collector when the callbacks have been told that the pass starts. -/
  collector : Collector
  opened : Machine
  opening_eq : opening hooks g t = .ok collector opened
  /-- The candidates that the first analysis finds reachable, and the others. -/
  reachable : List ObjectId
  unreachable : List ObjectId
  divided : Machine
  divide_eq : Cycles.divide (Cycles.members opened.memory.heap (collector.tracker.candidates g))
    opened = .ok (reachable, unreachable) divided
  /-- Some finalizer has run. -/
  ran : Bool
  finalized : Machine
  finalize_eq : Cycles.finalizeAll hooks.finalization unreachable divided = .ok ran finalized
  report : CycleReport
  collected : Machine
  collect_eq : Cycles.collect hooks.finalization g.val (collector.tracker.candidates g)
    (options collector.debug) opened = .ok report collected
  outcome : PassOutcome
  ended : Machine
  closing_eq : closing hooks g (options collector.debug) report collected = .ok outcome ended
  body_eq : body hooks g t = .ok outcome ended

variable {hooks : PassHooks} {c : Collector} {g : Generation}

/-- What is kept of the course of a pass. -/
def Course.trace (k : Course sc L Q hooks g t) : Trace hooks g t where
  collector := k.collector
  opened := k.opened
  opening_eq := k.opening_eq
  reachable := k.collection.reachable
  unreachable := k.collection.unreachable
  divided := _
  divide_eq := k.collection.divide_eq
  ran := k.collection.ran
  finalized := k.collection.finalized
  finalize_eq := k.collection.finalize_eq
  report := k.collection.report
  collected := k.collection.after
  collect_eq := k.collection.collect_eq
  outcome := k.outcome
  ended := k.ended
  closing_eq := k.closing_eq
  body_eq := k.body_eq

/-- Unless it keeps garbage, a pass classifies its candidates. What it has collected is dead when it
ends. -/
theorem Course.classified (k : Course sc L Q hooks g t) (H : hooks.Sound sc n)
    (discards : k.collector.debug.has .saveAll = false) :
    Cycles.Classification
      (Cycles.members k.opened.memory.heap (k.collector.tracker.candidates g))
      k.collection.reachable k.collection.unreachable k.collection.report
      k.collection.finalized.memory.heap k.collection.after.memory.heap ∧
    (∀ x ∈ k.collection.report.collected, k.ended.memory.heap.get? x = none) ∧
    k.outcome.collected = k.collection.report.collected.length ∧
    k.outcome.resurrected = k.collection.report.resurrected :=
  ⟨k.collection.classification k.opens.there.calm (k.nodup_candidates H) discards,
    fun _ => k.dead_of_collected discards, k.collected, k.resurrected⟩

/-- A pass runs to its end and, unless it keeps garbage, classifies its candidates. What it has
collected is dead when it ends. -/
theorem classifies (H : hooks.Sound sc n) (A : At sc true L Q t)
    (hn : t.memory.heap.unspent sc ≤ n) (hc : t.memory.collector = some c) (g : Generation) :
    ∃ k : Trace hooks g t, k.collector.debug.has .saveAll = false →
      Cycles.Classification
        (Cycles.members k.opened.memory.heap (k.collector.tracker.candidates g)) k.reachable
        k.unreachable k.report k.finalized.memory.heap k.collected.memory.heap ∧
      (∀ x ∈ k.report.collected, k.ended.memory.heap.get? x = none) ∧
      k.outcome.collected = k.report.collected.length ∧
      k.outcome.resurrected = k.report.resurrected := by
  obtain ⟨k⟩ := body_course H A hn hc g
  exact ⟨k.trace, k.classified H⟩

end Pass

namespace Machine

/-- A moment in the course of an operation at which a pass is running. -/
theorem Attained.during (run : Attained s) {op : Op}
    (amid : Steps (s.memory.scope op) (Loose.none, s.forget) (L, t)) {c : Collector}
    (hc : t.memory.collector = some c) (marked : c.collecting = true) :
    At (s.memory.scope op) true L (fun _ => True) t := by
  refine ⟨Steps.sound amid (run.begun op).sound, fun _ _ _ _ => trivial, ?_⟩
  rw [Memory.isCollecting, hc, Option.any_some, marked]

/-- Classification by a pass, whatever finalizers of a host do. Let a pass begin at any moment `t`
in the course of an operation on an attained machine. It runs to its end; and unless it keeps
garbage, it collects or resurrects each of the candidates that the first analysis finds unreachable.
What is collected is dead at the end of the pass. What is resurrected are those that were live when
the finalizers had run and that were supported then. What survives are the live ones of the other
candidates and the resurrected ones. -/
theorem Attained.pass_classifies (run : Attained s) {op : Op}
    (amid : Steps (s.memory.scope op) (Loose.none, s.forget) (L, t)) {c : Collector}
    (hc : t.memory.collector = some c) (marked : c.collecting = true)
    (enough : t.memory.heap.unspent (s.memory.scope op) ≤ n) (g : Generation) :
    ∃ k : Pass.Trace (Hooks.ofPass n) g t, k.collector.debug.has .saveAll = false →
      Cycles.Classification
        (Cycles.members k.opened.memory.heap (k.collector.tracker.candidates g)) k.reachable
        k.unreachable k.report k.finalized.memory.heap k.collected.memory.heap ∧
      (∀ x ∈ k.report.collected, k.ended.memory.heap.get? x = none) ∧
      k.outcome.collected = k.report.collected.length ∧
      k.outcome.resurrected = k.report.resurrected :=
  Pass.classifies (Hooks.ofPass_sound _ trivial trivial n) (run.during amid hc marked) enough hc g

theorem pass_classifies_rescue :
    ∃ k : Pass.Trace (Hooks.ofPass 1) .oldest
      ((abandonedCycle rescue).forget.mapCollector ({ · with collecting := true })),
      Cycles.Classification
        (Cycles.members k.opened.memory.heap (k.collector.tracker.candidates .oldest)) k.reachable
        k.unreachable k.report k.finalized.memory.heap k.collected.memory.heap ∧
      k.report.resurrected = [1, 2] ∧ k.report.collected = [] := by
  have present : (abandonedCycle rescue).memory.collector.isSome = true := by decide +kernel
  obtain ⟨c, hc⟩ := Option.isSome_iff_exists.mp present
  have budget := (abandonedCycle rescue).memory.unspent_le_budget (.call (.collect 2))
  have one : (abandonedCycle rescue).memory.finalizerBudget +
      Op.installs (.call (.collect 2)) = 1 := by decide +kernel
  have amid : Steps ((abandonedCycle rescue).memory.scope (.call (.collect 2)))
      (Loose.none, (abandonedCycle rescue).forget) (Loose.none, _) := .single (.collecting true)
  have marked {s : Machine} (hc : s.memory.collector = some c) :
      (s.forget.mapCollector ({ · with collecting := true })).memory.collector =
        some { c with collecting := true } := congrArg (Option.map _) hc
  obtain ⟨k, law⟩ := (attained_abandonedCycle rescue rfl).pass_classifies amid (marked hc) rfl
    (one ▸ budget) .oldest
  have off : (match Pass.opening (Hooks.ofPass 1) .oldest
      ((abandonedCycle rescue).forget.mapCollector ({ · with collecting := true })) with
      | .ok c _ => c.debug.has .saveAll
      | .error _ _ => true) = false := by decide +kernel
  have facts : (match Pass.body (Hooks.ofPass 1) .oldest
      ((abandonedCycle rescue).forget.mapCollector ({ · with collecting := true })) with
      | .ok outcome _ => some (outcome.collected, outcome.resurrected)
      | .error _ _ => none) = some (0, [1, 2]) := by decide +kernel
  rw [k.opening_eq] at off
  rw [k.body_eq, Option.some.injEq, Prod.mk.injEq] at facts
  obtain ⟨classified, -, collected, resurrected⟩ := law off
  rw [collected, resurrected] at facts
  exact ⟨k, classified, facts.2, List.length_eq_zero_iff.mp facts.1⟩

end Machine

end Reclaim
