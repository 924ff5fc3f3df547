import Reclaim.Console
import Reclaim.Introspection

/-!
# The machine and its history

A `Machine` is memory together with what a run leaves behind: the console, the journal of what
happened, and the snapshots that the host keeps. Operations are actions on a machine that can end in
a fault; unlike a pure function on the heap, an action keeps what it had done before the fault.

The journal holds a `Moment` for every hook entered, every step of a hook performed and every object
freed, each with the memory as it was then.
-/

namespace Reclaim

/-- The value that an operation answers with. -/
inductive Answer where
  | done
  | bool (value : Bool)
  | nat (value : Nat)
  | ids (value : List ObjectId)
  | id? (value : Option ObjectId)
  | object? (value : Option Object)
  | generation? (value : Option Generation)
  | counts (value : PerGeneration Nat)
  | stats (value : PerGeneration GenerationStats)
  | totals (collected collections : Nat)
  | flags (value : DebugFlags)
  | policy (value : ResurrectionPolicy)
  | report (value : Report)
  | cycles (value : CycleReport)

/-- Something that happened in the course of an operation. -/
inductive Event where
  /-- The finalizer of an object is entered. -/
  | finalizing (id : ObjectId)
  /-- A finalizer has said which object it belongs to. -/
  | announced (name : String) (id : ObjectId)
  /-- A callback is told about one end of a pass. -/
  | calledBack (index : Nat) (phase : Phase) (info : PassInfo)
  /-- A step of a hook has come to its end; `before` is the memory that it started from. -/
  | performed (op : Op) (before : Memory) (outcome : Except Fault Answer)
  /-- An object is taken out of the heap. -/
  | freeing (id : ObjectId)

/-- An event, and the memory at that time. An object that is being freed is still in it. -/
structure Moment where
  event : Event
  memory : Memory

/-- Memory and what a run leaves behind. -/
structure Machine where
  memory : Memory := {}
  console : Console := {}
  /-- What happened, last things first. -/
  journal : List Moment := []
  /-- The sequences that the host keeps, by slot. -/
  snapshots : Std.ExtTreeMap Nat Snapshot := ∅
  /-- The number of callbacks ever registered. -/
  registered : Nat := 0
  /-- A run was cut short because its budget of hooks was used up. -/
  starved : Bool := false

/-- An action on a machine. -/
abbrev Act := EStateM Fault Machine

namespace Act

/-- The memory as it is now. -/
def memory : Act Memory := return (← get).memory

/-- The heap as it is now. -/
def heap : Act Heap := return (← get).memory.heap

/-- Replaces the memory. -/
def setMemory (m : Memory) : Act Unit := modify fun s => { s with memory := m }

/-- Replaces the heap. -/
def setHeap (h : Heap) : Act Unit := modify fun s => { s with memory.heap := h }

/-- The value of a computation that is not a fault. -/
def ofExcept : Except Fault α → Act α
  | .ok a => pure a
  | .error e => throw e

/-- Changes the heap, unless that is refused. -/
def edit (f : Heap → Except Fault Heap) : Act Unit := do
  setHeap (← ofExcept (f (← heap)))

/-- Changes the heap and answers, unless that is refused. -/
def editWith (f : Heap → Except Fault (α × Heap)) : Act α := do
  let (a, h) ← ofExcept (f (← heap))
  setHeap h
  return a

/-- The collector, which must be there. -/
def collector : Act Collector := do
  match (← memory).collector with
  | some c => return c
  | none => throw .collectorMissing

/-- Changes the collector, if there is one. -/
def modifyCollector (f : Collector → Collector) : Act Unit :=
  modify fun s => { s with memory.collector := s.memory.collector.map f }

/-- Writes an event into the journal. -/
def record (event : Event) : Act Unit :=
  modify fun s => { s with journal := ⟨event, s.memory⟩ :: s.journal }

/-- Adds ordinary output. -/
def print (text : String) : Act Unit := modify fun s => { s with console := s.console.print text }

/-- Writes a notice. -/
def post (notice : Notice) : Act Unit := modify fun s => { s with console := s.console.post notice }

/-- Runs an action to its end; a fault becomes a value, and what was done before it stays done. -/
def attempt (act : Act α) : Act (Except Fault α) := fun s =>
  match act s with
  | .ok a s => .ok (.ok a) s
  | .error e s => .ok (.error e) s

/-- Gives up because the budget of hooks is used up. -/
def starve : Act Unit := modify fun s => { s with starved := true }

end Act

end Reclaim
