import Reclaim.Object
import Std.Data.ExtTreeSet

/-!
# Generations

The tracker files the handles of containers by age and counts what decides when a pass is due.
Count 0 is the number of allocations less the number of objects freed since the last pass, and
never negative; count `g + 1` is the number of passes over `g` since the last pass over `g + 1` or
an older generation.
-/

namespace Reclaim

/-- A set of handles in ascending order. -/
abbrev IdSet := Std.ExtTreeSet ObjectId

namespace Ascending

/-- Merges the list of `first` and `rest` with another one, given how `rest` is merged. -/
def mergeFirst (first : ObjectId) (rest : List ObjectId)
    (mergeRest : List ObjectId → List ObjectId) : List ObjectId → List ObjectId
  | [] => first :: rest
  | id :: ids =>
      if first ≤ id then first :: mergeRest (id :: ids)
      else id :: mergeFirst first rest mergeRest ids

/-- Merges two ascending lists into one, with repetitions. -/
def merge : List ObjectId → List ObjectId → List ObjectId
  | [] => fun ids => ids
  | first :: rest => mergeFirst first rest (merge rest)

end Ascending

/-- Containers by age, with the counters of the schedule. -/
structure Tracker where
  buckets : PerGeneration IdSet
  thresholds : Thresholds
  counts : PerGeneration Nat
  /-- The number of passes over each generation. -/
  collections : PerGeneration Nat

namespace Tracker

/-- A tracker that has seen nothing. -/
def start (thresholds : Thresholds) : Tracker where
  buckets := .replicate 3 ∅
  thresholds := thresholds
  counts := .replicate 3 0
  collections := .replicate 3 0

/-- The handles filed under a generation. -/
def bucket (t : Tracker) (g : Generation) : IdSet := t.buckets.get g

/-- Changes the bucket of a generation. -/
def modifyBucket (t : Tracker) (g : Generation) (f : IdSet → IdSet) : Tracker :=
  { t with buckets := t.buckets.update g f }

/-- Counts an allocation. -/
def countAllocation (t : Tracker) : Tracker :=
  { t with counts := t.counts.update .youngest (· + 1) }

/-- A pass over the youngest generation is due once its count exceeds its threshold. -/
def isDue (t : Tracker) : Bool := t.counts.get Generation.youngest > t.thresholds.get .youngest

/-- Files a new container under the youngest generation and counts its allocation. -/
def containerAllocated (t : Tracker) (o : Object) : Tracker × Object :=
  ((t.modifyBucket .youngest (·.insert o.id)).countAllocation, { o with generation := 0 })

/-- Counts the allocation of an atom. -/
def atomAllocated (t : Tracker) : Tracker := t.countAllocation

/-- Files or counts a new object, by its kind. -/
def allocated (t : Tracker) (o : Object) : Tracker × Object :=
  if o.isContainer then t.containerAllocated o else (t.atomAllocated, o)

/-- Takes a freed container from the bucket of its generation; a generation without a bucket is
passed over. -/
def untrack (t : Tracker) (o : Object) : Tracker :=
  match Generation.ofInt? o.generation with
  | some g => t.modifyBucket g (·.erase o.id)
  | none => t

/-- Counts a freed object and, if it is a container, stops tracking it. -/
def deallocated (t : Tracker) (o : Object) : Tracker :=
  let t := { t with counts := t.counts.update .youngest (· - 1) }
  if o.isContainer then t.untrack o else t

/-- Files a survivor of a pass under `target`, and gives the object that age. -/
def promote (target : Generation) (t : Tracker) (o : Object) : Tracker × Object :=
  if o.generation = target.val then
    (t.modifyBucket target (·.insert o.id), o)
  else
    ((t.untrack o).modifyBucket target (·.insert o.id), { o with generation := target.val })

/-- Files survivors of a pass under `target`, one after the other; a handle that the table does not
know is passed over. -/
def promoteAll (target : Generation) (t : Tracker) (table : ObjectTable) :
    List ObjectId → Tracker × ObjectTable
  | [] => (t, table)
  | id :: rest =>
      match table[id]? with
      | none => promoteAll target t table rest
      | some o =>
          let (t, o) := promote target t o
          promoteAll target t (table.insert id o) rest

/-- Counts a finished pass over `g`. -/
def countPass (t : Tracker) (g : Generation) : Tracker :=
  let counts := .ofFn fun i : Generation =>
    if i ≤ g then 0 else if g.older? = some i then t.counts.get i + 1 else t.counts.get i
  { t with counts, collections := t.collections.update g (· + 1) }

/-- The older generation that is due now that a pass over `g` has been counted. -/
def dueAfter (t : Tracker) (g : Generation) : Option Generation :=
  g.older?.filter fun i => t.counts.get i ≥ t.thresholds.get i

/-- Completes a pass over `g`: the survivors are promoted and the pass is counted. The answer
includes the older generation that is due now. -/
def passCompleted (t : Tracker) (g : Generation) (survivors : List ObjectId)
    (table : ObjectTable) : Tracker × ObjectTable × Option Generation :=
  let (t, table) := promoteAll g.next t table survivors
  let t := t.countPass g
  (t, table, t.dueAfter g)

/-- The containers in the generations up to `g`, by ascending handle. -/
def candidates (t : Tracker) (g : Generation) : List ObjectId :=
  g.upTo.foldr (fun i => Ascending.merge (t.bucket i).toList) []

/-- All tracked containers, by ascending handle. -/
def tracked (t : Tracker) : List ObjectId := t.candidates .oldest

/-- The generation that a handle is filed under. -/
def generationOf? (t : Tracker) (id : ObjectId) : Option Generation :=
  (List.finRange 3).find? fun g => (t.bucket g).contains id

/-- The handle is filed under some generation. -/
def isTracked (t : Tracker) (id : ObjectId) : Bool := (t.generationOf? id).isSome

/-- The number of tracked containers. -/
def trackedCount (t : Tracker) : Nat := t.buckets.total (·.size)

/-- Replaces the thresholds, provided that the new ones are positive. -/
def setThresholds (t : Tracker) (counts : PerGeneration Nat) : Except Fault Tracker := do
  return { t with thresholds := ← Thresholds.ofCounts counts }

/-- The generation that a caller names by number. -/
def generation (g : Int) : Except Fault Generation :=
  match Generation.ofInt? g with
  | some g => .ok g
  | none => .error (.invalidConfiguration (.generationRange g))

end Tracker

end Reclaim
