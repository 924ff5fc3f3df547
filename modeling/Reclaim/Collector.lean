import Reclaim.Generations
import Reclaim.Heap

/-!
# The collector and the memory it watches

A collector is a tracker together with its switches, its statistics, the garbage it keeps and the
callbacks it tells about passes. `Memory` pairs a heap with the collector that watches it, if any;
allocating and freeing go through `Memory`, so that the collector hears of both.
-/

namespace Reclaim

/-- What passes over one generation have done. -/
structure GenerationStats where
  collections : Nat := 0
  collected : Nat := 0
  uncollectable : Nat := 0
  deriving DecidableEq

/-- A hook that is told about both ends of every pass. -/
structure Callback where
  /-- Callbacks are numbered in the order of their registration. -/
  index : Nat
  phase : CallbackPhase
  script : Script

/-- What callbacks are told: at the start of a pass both amounts are zero. -/
structure PassInfo where
  generation : Generation
  collected : Nat := 0
  uncollectable : Nat := 0
  deriving DecidableEq

/-- Result of looking for unreachable cycles among some candidates. -/
structure CycleReport where
  generation : Int
  /-- The number of candidates that were live containers. -/
  examined : Nat
  /-- Unreachable containers, freed or saved. -/
  collected : List ObjectId := []
  /-- Containers that finalizers made reachable again. -/
  resurrected : List ObjectId := []
  /-- Candidates that are live at the end and grow older. -/
  survivors : List ObjectId := []
  deriving DecidableEq

/-- The state of a collector. -/
structure Collector where
  tracker : Tracker
  /-- Allocations may start passes. -/
  enabled : Bool
  debug : DebugFlags
  policy : ResurrectionPolicy
  /-- A pass is running. -/
  collecting : Bool := false
  stats : PerGeneration GenerationStats := .replicate 3 {}
  /-- Unreachable containers that were kept; the collector holds one root reference to each. -/
  garbage : List ObjectId := []
  callbacks : List Callback := []

namespace Collector

/-- A collector with the given settings, if their thresholds are positive. -/
def start (settings : Settings) : Except Fault Collector := do
  let thresholds ← Thresholds.ofCounts settings.thresholds
  return {
    tracker := .start thresholds
    enabled := settings.enabled
    debug := settings.debug
    policy := settings.policy }

/-- An automatic pass is to be started: one is due, and neither the switch nor a running pass
prevents it. While a pass runs the count is kept, and the next allocation looks again. -/
def wantsPass (c : Collector) : Bool := c.tracker.isDue && c.enabled && !c.collecting

/-- Adds the outcome of a pass to the statistics. -/
def addStats (c : Collector) (g : Generation) (collected uncollectable : Nat) : Collector :=
  { c with
    stats := c.stats.update g fun s => {
      collections := s.collections + 1
      collected := s.collected + collected
      uncollectable := s.uncollectable + uncollectable } }

/-- Containers reclaimed by all passes. -/
def totalCollected (c : Collector) : Nat := c.stats.total (·.collected)

/-- Passes over all generations. -/
def totalCollections (c : Collector) : Nat := c.stats.total (·.collections)

end Collector

/-- A heap and the collector that watches it. -/
structure Memory where
  heap : Heap := {}
  collector : Option Collector := none

namespace Memory

/-- Allocates an object and lets the collector file it. -/
def allocate (m : Memory) (kind : Kind) (typeName : String) : ObjectId × Memory :=
  let (o, heap) := m.heap.allocate kind typeName
  match m.collector with
  | none => (o.id, { m with heap })
  | some c =>
      let (tracker, o) := c.tracker.allocated o
      (o.id, { heap := heap.put o.id o, collector := some { c with tracker } })

/-- Takes an object out of the heap, after the collector has been told. -/
def destroy (m : Memory) (id : ObjectId) : Except Fault Memory :=
  match m.heap.get? id with
  | none => .error (.invalidReference id .destroyUnknown)
  | some o => .ok {
      heap := m.heap.erase id
      collector := m.collector.map fun c => { c with tracker := c.tracker.deallocated o } }

/-- The collector wants to start an automatic pass. -/
def wantsPass (m : Memory) : Bool := m.collector.any (·.wantsPass)

/-- A pass is running. -/
def isCollecting (m : Memory) : Bool := m.collector.any (·.collecting)

end Memory

end Reclaim
