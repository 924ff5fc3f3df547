import Mathlib.Algebra.Ring.Int.Defs
import Mathlib.Data.List.DropRight
import Mathlib.Order.Bounds.Basic
import Reclaim.Proofs.Books

/-!
# What the counters of a tracker mean

The counters in closed form, for every sequence of calls that a tracker receives. A count that never
goes below zero does not tell allocations less frees: the frees that it ignores are forgotten. It
tells the greatest excess of allocations over frees in any stretch of calls that ends now
(`Tracker.isGreatest_youngest`), since a stretch that begins with more frees than allocations is
better begun later. The counts of the older generations tell what their name says
(`Tracker.counts_older`). `Tracker.counters_meaning` puts both together with what the tracker answers
when a pass is due.
-/

set_option autoImplicit false

namespace Reclaim

namespace Tracker

/-- A call that a tracker receives and that changes it. -/
inductive Call where
  | containerAllocated (o : Object)
  | atomAllocated
  | deallocated (o : Object)
  | passCompleted (g : Generation) (survivors : List ObjectId) (table : ObjectTable)
  | setThresholds (counts : PerGeneration Nat)

/-- The tracker after a call. New thresholds that are refused leave it as it is. -/
def receive (t : Tracker) : Call → Tracker
  | .containerAllocated o => (t.containerAllocated o).1
  | .atomAllocated => t.atomAllocated
  | .deallocated o => t.deallocated o
  | .passCompleted g survivors table => (t.passCompleted g survivors table).1
  | .setThresholds counts => (t.setThresholds counts).toOption.getD t

/-- The tracker after some calls. -/
def receiveAll (t : Tracker) (calls : List Call) : Tracker := calls.foldl receive t

namespace Call

/-- An allocation counts up, a free counts down. -/
def movement? : Call → Option ℤ
  | .containerAllocated _ | .atomAllocated => some 1
  | .deallocated _ => some (-1)
  | .passCompleted .. | .setThresholds _ => none

/-- The generation that a pass was over. -/
def pass? : Call → Option Generation
  | .passCompleted g .. => some g
  | _ => none

/-- A pass over a generation or an older one. -/
def resets (i : Generation) (call : Call) : Bool := call.pass?.any (i ≤ ·)

end Call

/-- The calls since the last pass over a generation or an older one. -/
def since (i : Generation) (calls : List Call) : List Call :=
  calls.rtakeWhile fun call => !call.resets i

/-- The allocations and frees since the last pass, as changes by one. -/
def movements (calls : List Call) : List ℤ := (since .youngest calls).filterMap Call.movement?

/-- The number of passes over `g` since the last one over `i` or an older generation. -/
def passes (g i : Generation) (calls : List Call) : Nat :=
  (since i calls).countP (·.pass? = some g)

variable {t : Tracker} {calls : List Call} {call : Call} {g i : Generation}

/-! ## One call -/

theorem passCompleted_eq (t : Tracker) (g : Generation) (survivors : List ObjectId)
    (table : ObjectTable) :
    ∃ buckets, (t.passCompleted g survivors table).1 = { t with buckets }.countPass g := by
  obtain ⟨buckets, e⟩ := promoteAll_eq g.next survivors t table
  exact ⟨buckets, congrArg (countPass · g) e⟩

theorem deallocated_eq (t : Tracker) (o : Object) :
    ∃ buckets, t.deallocated o =
      { t with buckets, counts := t.counts.update .youngest (· - 1) } := by
  unfold deallocated
  dsimp only
  split
  · exact untrack_eq _ o
  · exact ⟨t.buckets, rfl⟩

theorem setThresholds_counts (t : Tracker) (counts : PerGeneration Nat) :
    ((t.setThresholds counts).toOption.getD t).counts = t.counts := by
  unfold setThresholds
  cases Thresholds.ofCounts counts <;> rfl

/-- A pass resets the counts that it covers and counts for the next older generation. -/
theorem counts_of_pass (pass : call.pass? = some g) (i : Generation) :
    (t.receive call).counts.get i =
      if i ≤ g then 0 else if g.older? = some i then t.counts.get i + 1 else t.counts.get i := by
  cases call with
  | passCompleted g' survivors table =>
    cases pass
    obtain ⟨buckets, e⟩ := passCompleted_eq t g survivors table
    show (t.passCompleted g survivors table).1.counts.get i = _
    rw [e, counts_countPass]
  | containerAllocated _ | atomAllocated | deallocated _ | setThresholds _ => cases pass

/-- Whatever is not a pass leaves the counts of the older generations alone. -/
theorem counts_of_other (other : call.pass? = none) (older : i ≠ .youngest) :
    (t.receive call).counts.get i = t.counts.get i := by
  have update (f : Nat → Nat) : (t.counts.update .youngest f).get i = t.counts.get i := by
    rw [PerGeneration.get_update, if_neg (Ne.symm older)]
  cases call with
  | containerAllocated _ | atomAllocated => exact update _
  | deallocated o =>
    obtain ⟨buckets, e⟩ := deallocated_eq t o
    show (t.deallocated o).counts.get i = _
    rw [e, update]
  | passCompleted _ _ _ => cases other
  | setThresholds counts => exact congrArg (·.get i) (setThresholds_counts t counts)

/-- The count of the youngest generation follows the movements, but not below zero. -/
theorem counts_of_movement (other : call.pass? = none) :
    ((t.receive call).counts.get Generation.youngest : ℤ) =
      match call.movement? with
      | some d => max (t.counts.get Generation.youngest + d) 0
      | none => t.counts.get Generation.youngest := by
  have update (f : Nat → Nat) :
      (t.counts.update .youngest f).get Generation.youngest = f (t.counts.get Generation.youngest) := by
    rw [PerGeneration.get_update, if_pos rfl]
  cases call with
  | containerAllocated _ | atomAllocated =>
    show (((t.counts.update .youngest (· + 1)).get Generation.youngest : ℕ) : ℤ) =
      max ((t.counts.get Generation.youngest : ℤ) + 1) 0
    rw [update]
    omega
  | deallocated o =>
    obtain ⟨buckets, e⟩ := deallocated_eq t o
    show ((t.deallocated o).counts.get Generation.youngest : ℤ) =
      max ((t.counts.get Generation.youngest : ℤ) + -1) 0
    rw [e, update]
    omega
  | passCompleted _ _ _ => cases other
  | setThresholds counts =>
    exact congrArg (fun v => ((v.get Generation.youngest : ℕ) : ℤ)) (setThresholds_counts t counts)

theorem thresholds_of_movement (moves : call.movement? ≠ none) :
    (t.receive call).thresholds = t.thresholds := by
  cases call with
  | containerAllocated _ | atomAllocated => rfl
  | deallocated o =>
    obtain ⟨buckets, e⟩ := deallocated_eq t o
    show (t.deallocated o).thresholds = _
    rw [e]
  | passCompleted _ _ _ | setThresholds _ => exact absurd rfl moves

/-! ## Some calls -/

theorem receiveAll_append (t : Tracker) (calls : List Call) (call : Call) :
    t.receiveAll (calls ++ [call]) = (t.receiveAll calls).receive call := by
  unfold receiveAll
  rw [List.foldl_append]
  rfl

theorem since_append (i : Generation) (calls : List Call) (call : Call) :
    since i (calls ++ [call]) = if call.resets i then [] else since i calls ++ [call] := by
  unfold since
  rw [List.rtakeWhile_concat]
  cases call.resets i <;> rfl

theorem resets_of_pass (pass : call.pass? = some g) (i : Generation) :
    call.resets i = decide (i ≤ g) := by
  rw [Call.resets, pass, Option.any_some]

theorem resets_of_other (other : call.pass? = none) (i : Generation) : call.resets i = false := by
  rw [Call.resets, other, Option.any_none]

/-- Every pass covers the youngest generation. -/
theorem youngest_le (g : Generation) : Generation.youngest ≤ g := Fin.zero_le g

theorem movements_append (calls : List Call) (call : Call) :
    movements (calls ++ [call]) =
      if call.pass?.isSome then [] else movements calls ++ call.movement?.toList := by
  rw [movements, since_append]
  cases pass : call.pass? with
  | some g =>
    rw [resets_of_pass pass, decide_eq_true (youngest_le g)]
    rfl
  | none =>
    rw [resets_of_other pass, if_neg Bool.false_ne_true, List.filterMap_append, movements]
    cases moves : call.movement? <;> simp [moves]

theorem passes_append (g i : Generation) (calls : List Call) (call : Call) :
    passes g i (calls ++ [call]) = if call.resets i then 0 else
      passes g i calls + if call.pass? = some g then 1 else 0 := by
  rw [passes, since_append]
  split
  · rfl
  · rw [List.countP_append, List.countP_singleton, passes]
    simp only [decide_eq_true_eq]

/-- The greatest sum of a stretch at the end of a list that is one longer. -/
theorem isGreatest_stretch {ms : List ℤ} {n : ℤ}
    (greatest : IsGreatest {n | ∃ stretch, stretch <:+ ms ∧ stretch.sum = n} n) (d : ℤ) :
    IsGreatest {n | ∃ stretch, stretch <:+ ms ++ [d] ∧ stretch.sum = n} (max (n + d) 0) := by
  obtain ⟨⟨best, suffix, sum⟩, bound⟩ := greatest
  constructor
  -- the best stretch goes on, unless the empty one is better now
  · rcases le_total 0 (n + d) with more | less
    · refine ⟨best ++ [d], List.suffix_concat_iff.mpr (.inr ⟨best, rfl, suffix⟩), ?_⟩
      rw [List.sum_append, List.sum_singleton, sum, max_eq_left more]
    · refine ⟨[], List.nil_suffix, ?_⟩
      rw [List.sum_nil, max_eq_right less]
  · rintro m ⟨stretch, longer, rfl⟩
    rcases List.suffix_concat_iff.mp longer with rfl | ⟨front, rfl, shorter⟩
    · exact le_max_right _ _
    · have most := bound ⟨front, shorter, rfl⟩
      rw [List.sum_append, List.sum_singleton]
      exact le_max_of_le_left (by omega)

theorem isGreatest_nil : IsGreatest {n : ℤ | ∃ stretch, stretch <:+ [] ∧ stretch.sum = n} 0 := by
  constructor
  · exact ⟨[], List.nil_suffix, rfl⟩
  · rintro m ⟨stretch, suffix, rfl⟩
    rw [List.suffix_nil.mp suffix, List.sum_nil]

/-- The count of the youngest generation is the greatest excess of allocations over frees in any
stretch of calls since the last pass that ends now. -/
theorem isGreatest_youngest (thresholds : Thresholds) (calls : List Call) :
    IsGreatest {n : ℤ | ∃ stretch, stretch <:+ movements calls ∧ stretch.sum = n}
      (((start thresholds).receiveAll calls).counts.get Generation.youngest) := by
  induction calls using List.reverseRecOn with
  | nil => exact isGreatest_nil
  | append_singleton calls call ih =>
    rw [receiveAll_append, movements_append]
    cases pass : call.pass? with
    | some g =>
      rw [counts_of_pass pass, if_pos (youngest_le g)]
      exact isGreatest_nil
    | none =>
      rw [counts_of_movement pass]
      cases call.movement? with
      | some d => exact isGreatest_stretch ih d
      | none =>
        rw [Option.toList_none, List.append_nil]
        exact ih

theorem older?_injective {g' : Generation} (h : g.older? = some i) (h' : g'.older? = some i) :
    g' = g := by
  revert g g' i
  decide

theorem ne_youngest_of_older? (h : g.older? = some i) : i ≠ .youngest := by
  revert g i
  decide

/-- The count of an older generation is the number of passes over the next younger one since the
last pass that covered it. -/
theorem counts_older (thresholds : Thresholds) (calls : List Call) (older : g.older? = some i) :
    ((start thresholds).receiveAll calls).counts.get i = passes g i calls := by
  induction calls using List.reverseRecOn with
  | nil => exact Vector.getElem_replicate _
  | append_singleton calls call ih =>
    rw [receiveAll_append, passes_append]
    cases pass : call.pass? with
    | some g' =>
      have same : g'.older? = some i ↔ g' = g :=
        ⟨older?_injective older, fun e => e ▸ older⟩
      simp only [counts_of_pass pass, resets_of_pass pass, decide_eq_true_eq, Option.some.injEq,
        same, ih]
      split
      · rfl
      · split <;> rfl
    | none =>
      rw [counts_of_other pass (ne_youngest_of_older? older), resets_of_other pass, ih]
      rfl

/-! ## What the tracker answers -/

/-- An allocation makes a pass due if some stretch of calls since the last pass that ends with it
has an excess of allocations over frees above the threshold. -/
theorem isDue_iff (thresholds : Thresholds) (calls : List Call) (moves : call.movement? ≠ none) :
    (((start thresholds).receiveAll calls).receive call).isDue = true ↔
      ∃ stretch, stretch ≠ [] ∧ stretch <:+ movements (calls ++ [call]) ∧
        (((start thresholds).receiveAll calls).thresholds.get .youngest : ℤ) < stretch.sum := by
  obtain ⟨⟨best, suffix, sum⟩, bound⟩ := isGreatest_youngest thresholds (calls ++ [call])
  rw [receiveAll_append] at sum bound
  rw [isDue, thresholds_of_movement moves, decide_eq_true_eq]
  constructor
  · intro due
    refine ⟨best, fun empty => ?_, suffix, by omega⟩
    rw [empty, List.sum_nil] at sum
    omega
  · rintro ⟨stretch, -, suffix, exceeds⟩
    have most := bound ⟨stretch, suffix, rfl⟩
    omega

/-- A pass makes the next older generation due if the passes since the last one that covered that
generation, this one included, have reached its threshold. -/
theorem due_passCompleted_iff (thresholds : Thresholds) (calls : List Call)
    (older : g.older? = some i) (survivors : List ObjectId) (table : ObjectTable) :
    (((start thresholds).receiveAll calls).passCompleted g survivors table).2.2 =
      if ((start thresholds).receiveAll calls).thresholds.get i ≤
        passes g i (calls ++ [.passCompleted g survivors table]) then some i else none := by
  rw [← counts_older thresholds _ older, receiveAll_append]
  obtain ⟨buckets, e⟩ := passCompleted_eq ((start thresholds).receiveAll calls) g survivors table
  show dueAfter (passCompleted _ g survivors table).1 g = _
  rw [receive, e, dueAfter, older, Option.filter_some]
  simp only [decide_eq_true_eq]
  rfl

/-- The meaning of the counters. Whatever calls a tracker has received, the count of the youngest
generation is the greatest excess of allocations over frees in a stretch of calls since the last
pass that ends now; and an allocation makes a pass due if there is one that exceeds the threshold
and ends with it. The count of an older generation is the number of passes over the next younger one
since the last pass over it or an older one, and a pass makes it due if that number has reached the
threshold. -/
theorem counters_meaning (thresholds : Thresholds) (calls : List Call) :
    IsGreatest {n : ℤ | ∃ stretch, stretch <:+ movements calls ∧ stretch.sum = n}
      (((start thresholds).receiveAll calls).counts.get Generation.youngest) ∧
    (∀ call : Call, call.movement? = some 1 →
      ((((start thresholds).receiveAll calls).receive call).isDue = true ↔
        ∃ stretch, stretch ≠ [] ∧ stretch <:+ movements (calls ++ [call]) ∧
          (((start thresholds).receiveAll calls).thresholds.get .youngest : ℤ) < stretch.sum)) ∧
    ∀ g i : Generation, g.older? = some i →
      ((start thresholds).receiveAll calls).counts.get i = passes g i calls ∧
      ∀ survivors table,
        (((start thresholds).receiveAll calls).passCompleted g survivors table).2.2 =
          if ((start thresholds).receiveAll calls).thresholds.get i ≤
            passes g i (calls ++ [.passCompleted g survivors table]) then some i else none := by
  refine ⟨isGreatest_youngest thresholds calls, fun call allocates => ?_, fun g i older => ?_⟩
  · exact isDue_iff thresholds calls (by simp [allocates])
  · exact ⟨counts_older thresholds calls older, due_passCompleted_iff thresholds calls older⟩

/-- An allocation, two frees, the second of an object that the tracker has not seen, and two
allocations. -/
def ebb : List Call :=
  let atom : Object := { id := 1, kind := .atom, typeName := "leaf" }
  [.atomAllocated, .deallocated atom, .deallocated atom, .atomAllocated, .atomAllocated]

/-- There is one allocation more than there are frees, but the tracker counts two. -/
theorem counters_meaning_ebb :
    (movements ebb).sum = 1 ∧
      IsGreatest {n : ℤ | ∃ stretch, stretch <:+ movements ebb ∧ stretch.sum = n} 2 ∧
      (∃ stretch, stretch ≠ [] ∧ stretch <:+ movements (ebb ++ [.atomAllocated]) ∧
        2 < stretch.sum) ∧
      passes 0 1 ebb = 0 ∧
      (((start ⟨#v[2, 1, 2], by decide⟩).receiveAll ebb).passCompleted 0 [] ∅).2.2 = some 1 := by
  obtain ⟨greatest, due, older⟩ := counters_meaning ⟨#v[2, 1, 2], by decide⟩ ebb
  refine ⟨by decide, greatest, (due .atomAllocated rfl).mp (by decide +kernel), by decide, ?_⟩
  rw [(older 0 1 rfl).2 [] ∅]
  decide +kernel

end Tracker

end Reclaim
