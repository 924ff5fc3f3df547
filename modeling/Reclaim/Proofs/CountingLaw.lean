import Reclaim.Proofs.Runs

/-!
# Counts, and what is freed

Two laws of every run of a host, whatever finalizers and callbacks do. Between operations the count
of an object is the number of references to it, and hooks never see a reference that is not counted
(`Machine.Attained.counting_law`). An object is freed only when the host does not hold it and no
references lead to it from an object that the host holds, and nothing goes in any other way
(`Machine.Attained.frees_only_unreachable`).
-/

set_option autoImplicit false

namespace Reclaim

namespace Machine

variable {s : Machine}

theorem Attained.performAll (run : Attained s) {ops : List Op}
    (host : ops.all Op.isOutsideOp = true) : Attained (s.performAll ops).2 := by
  induction ops generalizing s with
  | nil => exact run
  | cons op ops ih =>
    rw [List.all_cons, Bool.and_eq_true] at host
    exact ih (run.perform host.1) host.2

/-- The moments of a run, in order. -/
def history (s : Machine) (ops : List Op) : List Moment := (s.performAll ops).1.flatMap (·.moments)

theorem history_cons (s : Machine) (op : Op) (ops : List Op) :
    s.history (op :: ops) = (s.perform op).1.moments ++ (s.perform op).2.history ops := rfl

/-- The counting law. In every attained machine counts agree with references; and whenever a hook is
entered in the course of an operation, no reference dangles and every one is counted. -/
theorem Attained.counting_law (run : Attained s) :
    s.memory.heap.Consistent ∧
      ∀ op : Op, op.isOutsideOp = true → ∀ m ∈ (s.perform op).1.moments,
        m.event.entersHook = true → m.memory.heap.Covered :=
  ⟨run.settled.consistent, fun _ host m mem => (run.moments_fair host m mem).hook⟩

/-- A cycle of two containers that the host has let go of, the first of which has a finalizer. -/
def abandonedCycle (finalizer : Script) : Machine :=
  (performAll {} [.raw (.attach {}), .call (.allocate .container "node"),
    .call (.allocate .container "node"), .call (.addEdge (.id 1) (.id 2)),
    .call (.addEdge (.id 2) (.id 1)), .setFinalizer (.id 1) finalizer,
    .call (.release (.id 1)), .call (.release (.id 2))]).2

/-- A finalizer that takes a reference to its object and then throws. -/
def rescue : Script := [⟨.call (.retain .self), false⟩, ⟨.call (.throw "kept"), false⟩]

theorem attained_abandonedCycle (finalizer : Script)
    (host : Script.isHostScript finalizer = true) : Attained (abandonedCycle finalizer) := by
  apply Attained.performAll (.start none rfl)
  simp [Op.isOutsideOp, Op.isHostOp, host]

theorem counting_law_rescue :
    (abandonedCycle rescue).memory.heap.Consistent ∧
      (∀ m ∈ ((abandonedCycle rescue).perform (.call (.collect 2))).1.moments,
        m.event.entersHook = true → m.memory.heap.Covered) ∧
      ((abandonedCycle rescue).perform (.call (.collect 2))).1.moments.map (·.event.entersHook) =
        [true, false, false] :=
  have law := (attained_abandonedCycle rescue rfl).counting_law
  ⟨law.1, law.2 (.call (.collect 2)) rfl, by decide +kernel⟩

/-- No live data is ever freed: what is freed in the course of an operation has no root reference
then and is not reachable from an object that has one. Every object that goes in its course, be
it old or new, is freed in this way. -/
theorem Attained.frees_only_unreachable (run : Attained s) (op : Op)
    (host : op.isOutsideOp = true) :
    (∀ m ∈ (s.perform op).1.moments, ∀ x, m.event = .freeing x →
      (∃ o, m.memory.heap.get? x = some o ∧ o.rootCount = 0) ∧ ¬ m.memory.heap.Reachable x) ∧
    ∀ x, x < (s.perform op).2.memory.heap.nextId → (s.perform op).2.memory.heap.get? x = none →
      (x < s.memory.heap.nextId ∧ s.memory.heap.get? x = none) ∨
        ∃ m ∈ (s.perform op).1.moments, m.event = .freeing x :=
  ⟨fun m mem => (run.moments_fair host m mem).freed, fun _ => run.moments_freeing host⟩

/-- A finalizer that starts a pass of its own in vain, and lets the other container go. -/
def farewell : Script :=
  [⟨.call (.collect 2), true⟩, ⟨.call (.removeEdge .self (.id 2)), false⟩]

theorem frees_only_unreachable_farewell :
    (∀ m ∈ ((abandonedCycle farewell).perform (.call (.collect 2))).1.moments, ∀ x,
      m.event = .freeing x → (∃ o, m.memory.heap.get? x = some o ∧ o.rootCount = 0) ∧
        ¬ m.memory.heap.Reachable x) ∧
      ((abandonedCycle farewell).perform (.call (.collect 2))).1.moments.map
        (·.memory.heap.toList.map (·.id)) = [[1, 2], [1, 2], [1, 2], [1], []] :=
  have law := (attained_abandonedCycle farewell rfl).frees_only_unreachable (.call (.collect 2)) rfl
  ⟨law.1, by decide +kernel⟩

end Machine

end Reclaim
