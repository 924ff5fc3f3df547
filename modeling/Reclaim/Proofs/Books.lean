import Reclaim.Proofs.Steps

/-!
# The books and the pace

A collector keeps books of its passes: the statistics, and the number of passes over each generation
(`Books`). When a pass over an older generation is due is decided by its threshold and by its count,
the number of passes over the next younger one since it was last looked at. Both are part of the
pace of a collector, next to its books (`Pace`). Allocations and frees leave the pace alone; a pass
that is entered into the books changes it as a whole (`Memory.pace?_book`).
-/

set_option autoImplicit false

namespace Reclaim

/-- What passes add up: the statistics, and the number of passes over each generation. -/
structure Books where
  stats : PerGeneration GenerationStats
  collections : PerGeneration Nat

/-- The books after one more pass over `g`. -/
def Books.add (B : Books) (g : Generation) (collected uncollectable : Nat) : Books where
  stats := B.stats.update g fun s => {
    collections := s.collections + 1
    collected := s.collected + collected
    uncollectable := s.uncollectable + uncollectable }
  collections := B.collections.update g (· + 1)

/-- What decides when a pass over an older generation is due, and what passes add up. -/
structure Pace where
  thresholds : Thresholds
  /-- The counts of the older generations; the one of the youngest is left out. -/
  counts : Generation → Nat
  books : Books

namespace Pace

/-- The pace after one more pass over `g`. -/
def pass (p : Pace) (g : Generation) (collected uncollectable : Nat) : Pace where
  thresholds := p.thresholds
  counts i := if i ≤ g then 0 else if g.older? = some i then p.counts i + 1 else p.counts i
  books := p.books.add g collected uncollectable

/-- The older generation that is due after a pass over `g`. -/
def due (p : Pace) (g : Generation) : Option Generation :=
  g.older?.filter fun i => p.counts i ≥ p.thresholds.get i

end Pace

namespace Tracker

/-- The pace that a tracker keeps, with the statistics that are kept beside it. -/
def pace (t : Tracker) (stats : PerGeneration GenerationStats) : Pace where
  thresholds := t.thresholds
  counts g := if g = .youngest then 0 else t.counts.get g
  books := ⟨stats, t.collections⟩

variable (stats : PerGeneration GenerationStats)

/-- Allocations and frees are counted for the youngest generation only. -/
theorem pace_update_youngest (t : Tracker) (f : Nat → Nat) :
    pace { t with counts := t.counts.update .youngest f } stats = t.pace stats := by
  have counts (g : Generation) : (if g = .youngest then 0 else
      (t.counts.update .youngest f).get g) = if g = .youngest then 0 else t.counts.get g := by
    rw [PerGeneration.get_update]
    split
    · rfl
    · next older => rw [if_neg (Ne.symm older)]
  exact congrArg (Pace.mk t.thresholds · ⟨stats, t.collections⟩) (funext counts)

/-- Filing changes the buckets only. -/
theorem untrack_eq (t : Tracker) (o : Object) : ∃ buckets, t.untrack o = { t with buckets } := by
  unfold untrack
  split
  · exact ⟨_, rfl⟩
  · exact ⟨t.buckets, rfl⟩

theorem promoteAll_eq (target : Generation) (xs : List ObjectId) (t : Tracker)
    (table : ObjectTable) :
    ∃ buckets, (promoteAll target t table xs).1 = { t with buckets } := by
  induction xs generalizing t table with
  | nil => exact ⟨t.buckets, rfl⟩
  | cons x xs ih =>
    unfold promoteAll
    split
    · exact ih t table
    · next o _ =>
      have promoted : ∃ buckets, (promote target t o).1 = { t with buckets } := by
        unfold promote
        split
        · exact ⟨_, rfl⟩
        · obtain ⟨buckets, e⟩ := untrack_eq t o
          rw [e]
          exact ⟨_, rfl⟩
      obtain ⟨buckets, e⟩ := promoted
      obtain ⟨buckets', e'⟩ := ih (promote target t o).1 (table.insert x (promote target t o).2)
      exact ⟨buckets', by rw [e', e]⟩

theorem pace_untrack (t : Tracker) (o : Object) : (t.untrack o).pace stats = t.pace stats := by
  obtain ⟨buckets, e⟩ := untrack_eq t o
  rw [e]
  rfl

theorem pace_allocated (t : Tracker) (o : Object) :
    (t.allocated o).1.pace stats = t.pace stats := by
  unfold allocated
  split <;> exact pace_update_youngest stats _ _

theorem pace_deallocated (t : Tracker) (o : Object) :
    (t.deallocated o).pace stats = t.pace stats := by
  unfold deallocated
  dsimp only
  split
  · rw [pace_untrack, pace_update_youngest]
  · exact pace_update_youngest stats _ _

theorem pace_promoteAll (target : Generation) (xs : List ObjectId) (t : Tracker)
    (table : ObjectTable) : (promoteAll target t table xs).1.pace stats = t.pace stats := by
  obtain ⟨buckets, e⟩ := promoteAll_eq target xs t table
  rw [e]
  rfl

theorem counts_countPass (t : Tracker) (g i : Generation) :
    (t.countPass g).counts.get i =
      if i ≤ g then 0 else if g.older? = some i then t.counts.get i + 1 else t.counts.get i := by
  show (Vector.ofFn _)[i.val] = _
  rw [Vector.getElem_ofFn]

/-- The statistics after one more pass over `g`. -/
theorem pace_countPass (t : Tracker) (g : Generation) (collected uncollectable : Nat) :
    (t.countPass g).pace ((t.pace stats).books.add g collected uncollectable).stats =
      (t.pace stats).pass g collected uncollectable := by
  have counts (i : Generation) : (if i = .youngest then 0 else (t.countPass g).counts.get i) =
      if i ≤ g then 0 else if g.older? = some i then (t.pace stats).counts i + 1
        else (t.pace stats).counts i := by
    rw [counts_countPass, pace]
    dsimp only
    by_cases youngest : i = .youngest
    · have covered : i ≤ g := youngest ▸ Fin.zero_le g
      rw [if_pos youngest, if_pos covered]
    · rw [if_neg youngest, if_neg youngest]
  exact congrArg (Pace.mk t.thresholds · _) (funext counts)

/-- An older generation is due by the tracker just if it is by the pace. -/
theorem dueAfter_eq (t : Tracker) (g : Generation) : t.dueAfter g = (t.pace stats).due g := by
  match g with
  | 0 | 1 | 2 => rfl

end Tracker

namespace Collector

/-- The books that a collector keeps. -/
def books (c : Collector) : Books := ⟨c.stats, c.tracker.collections⟩

/-- The pace of a collector. -/
def pace (c : Collector) : Pace := c.tracker.pace c.stats

end Collector

namespace Memory

/-- The books of the collector, if there is one. -/
def books? (m : Memory) : Option Books := m.collector.map (·.books)

/-- The pace of the collector, if there is one. -/
def pace? (m : Memory) : Option Pace := m.collector.map (·.pace)

/-- The books are part of the pace. -/
theorem books?_eq (m : Memory) : m.books? = m.pace?.map (·.books) :=
  (Option.map_map Pace.books Collector.pace m.collector).symm

theorem pace?_allocate (m : Memory) (kind : Kind) (typeName : String) :
    (m.allocate kind typeName).2.pace? = m.pace? := by
  rw [allocate_eq, pace?, Option.map_map]
  exact congrArg (Option.map · _) (funext fun c => Tracker.pace_allocated c.stats _ _)

theorem pace?_destroy {m m' : Memory} {x : ObjectId} (run : m.destroy x = .ok m') :
    m'.pace? = m.pace? := by
  unfold destroy at run
  split at run
  · cases run
  · cases run
    rw [pace?, Option.map_map]
    exact congrArg (Option.map · _) (funext fun c => Tracker.pace_deallocated c.stats _ _)

/-- A pass that is entered into the books is counted for the next older generation, and the counts
of the generations that it has looked at start again. -/
theorem pace?_book {m : Memory} {c : Collector} (hc : m.collector = some c) (g : Generation)
    (saves : Bool) (r : CycleReport) : (m.book c g saves r).pace? =
      some (c.pace.pass g r.collected.length r.resurrected.length) := by
  have promoted := Tracker.pace_promoteAll c.stats g.next r.survivors c.tracker m.heap.objects
  rw [Collector.pace, ← promoted, ← Tracker.pace_countPass]
  unfold pace? book
  rw [hc]
  cases saves <;> rfl

/-- A pass is entered into the books with what it has collected and what was resurrected. -/
theorem books?_book {m : Memory} {c : Collector} (hc : m.collector = some c) (g : Generation)
    (saves : Bool) (r : CycleReport) : (m.book c g saves r).books? =
      m.books?.map (·.add g r.collected.length r.resurrected.length) := by
  rw [books?_eq, pace?_book hc, books?, hc]
  rfl

/-- The generation that the tracker finds due is the one that is due by the pace. -/
theorem due_passCompleted (m : Memory) (c : Collector) (g : Generation) (r : CycleReport) :
    (c.tracker.passCompleted g r.survivors m.heap.objects).2.2 =
      (c.pace.pass g r.collected.length r.resurrected.length).due g := by
  have promoted := Tracker.pace_promoteAll c.stats g.next r.survivors c.tracker m.heap.objects
  rw [Collector.pace, ← promoted, ← Tracker.pace_countPass, ← Tracker.dueAfter_eq]
  rfl

end Memory

end Reclaim
