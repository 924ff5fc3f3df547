import Reclaim.Collector

/-!
# Looking into memory

Questions that a watcher asks: who refers to an object, which containers are tracked, and what the
whole state is. `Snapshot` is the sequence of the containers tracked at one moment, of which those
that have died since are passed over when the sequence reaches them.
-/

namespace Reclaim

/-- The rest of a sequence over the containers tracked at one moment. -/
structure Snapshot where
  /-- The number of containers that were tracked. -/
  size : Nat
  /-- The handles that the sequence has not reached, ascending. -/
  rest : List ObjectId
  deriving DecidableEq

namespace Snapshot

/-- The containers that a tracker knows. -/
def of (t : Tracker) : Snapshot := ⟨t.tracked.length, t.tracked⟩

/-- The next handle that is still live, if any, and the rest of the sequence behind it. -/
def next (s : Snapshot) (h : Heap) : Option ObjectId × Snapshot :=
  match s.rest.dropWhile (!h.contains ·) with
  | [] => (none, { s with rest := [] })
  | id :: rest => (some id, { s with rest })

/-- All handles of the rest that are still live; the sequence is at its end afterwards. -/
def remaining (s : Snapshot) (h : Heap) : List ObjectId × Snapshot :=
  (s.rest.filter (h.contains ·), { s with rest := [] })

end Snapshot

namespace Heap

/-- The objects that a live object refers to. -/
def referents (h : Heap) (id : ObjectId) : Except Fault (List ObjectId) := do
  return (← h.get id).references

end Heap

/-- What a collector shows of itself. -/
structure CollectorReport where
  /-- Live tracked containers, each with the generation it is filed under. -/
  tracked : List (ObjectId × Option Generation)
  counts : PerGeneration Nat
  stats : PerGeneration GenerationStats
  garbage : List ObjectId

/-- What memory shows of itself. -/
structure Report where
  /-- All live objects by ascending handle. -/
  objects : List Object
  freed : Nat
  collector : Option CollectorReport

namespace Memory

/-- The tracked containers that are live, by ascending handle. -/
def tracked (m : Memory) (c : Collector) : List ObjectId :=
  ((Snapshot.of c.tracker).remaining m.heap).1

/-- The tracked containers that refer to an object, by ascending handle. -/
def referrers (m : Memory) (c : Collector) (id : ObjectId) : List ObjectId :=
  c.tracker.tracked.filter fun r => (m.heap.get? r).any fun o => id ∈ o.references

/-- The whole state. -/
def report (m : Memory) : Report where
  objects := m.heap.toList
  freed := m.heap.freed
  collector := m.collector.map fun c => {
    tracked := (m.tracked c).map fun id => (id, c.tracker.generationOf? id)
    counts := c.tracker.counts
    stats := c.stats
    garbage := c.garbage }

end Memory

end Reclaim
