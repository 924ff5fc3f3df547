import Reclaim.Pass

/-!
# Operations of the host

What a host can ask of the machine, as actions. They take the hooks as a parameter: how finalizers
are run, and how a pass is run in case one is started. Inside a pass there is nothing to say about
the latter, as no further pass can start there. `perform` is the meaning of an `Op`, and `runScript`
that of a script.
-/

namespace Reclaim

/-- How the hooks that an operation sets off are run. -/
structure Hooks where
  finalization : Finalization
  /-- The hooks of a pass that the operation starts; none while a pass is running. -/
  pass? : Option PassHooks

namespace Host

/-- Starts the passes that are due when an object has been allocated. -/
def afterAllocation (hooks : Hooks) (m : Memory) : Act Unit :=
  if m.wantsPass then
    match hooks.pass? with
    | some pass => Pass.runDue (Pass.run pass) 3 .youngest
    | none => Act.starve
  else
    return

/-- Allocates an object, which the host then holds one reference to. The allocation may start
passes; that reference keeps the new object alive in them, unless a hook gives it back. -/
def allocate (hooks : Hooks) (kind : Kind) (typeName : String) : Act ObjectId := do
  let (id, m) := (← Act.memory).allocate kind typeName
  Act.setMemory m
  afterAllocation hooks m
  return id

/-- Gives the host one more reference to an object. -/
def retain (id : ObjectId) : Act Unit := Act.edit (·.retain id)

/-- Takes one reference to an object from the host. -/
def release (hooks : Hooks) (id : ObjectId) : Act Unit := do
  -- refused without any change if the host holds no reference
  Act.edit (·.giveUpRoot id)
  Release.dropReference hooks.finalization id

/-- Gives one object a reference to another. -/
def addEdge (source target : ObjectId) : Act Unit := Act.edit (·.addEdge source target)

/-- Takes from one object its first reference to another. -/
def removeEdge (hooks : Hooks) (source target : ObjectId) : Act Unit := do
  Act.edit (·.cut source target)
  Release.dropReference hooks.finalization target

/-- Gives an object the hook that runs before it is freed, or takes it away. -/
def setFinalizer (id : ObjectId) (finalizer : Option Script) : Act Unit :=
  Act.edit (·.setFinalizer id finalizer)

/-- Allocates several objects in a row; the answer is the last one, or `last` if there is none. -/
def allocateMany (hooks : Hooks) (kind : Kind) (last : ObjectId) : Nat → Act ObjectId
  | 0 => return last
  | count + 1 => do
      let next ← allocate hooks kind plainTypeName
      allocateMany hooks kind next count

/-- Allocates a container of a chain. -/
def allocateLink (hooks : Hooks) : Act ObjectId :=
  allocate hooks .container Kind.container.name

/-- Fastens a new container to the last one of a chain, which alone refers to it then. -/
def fasten (hooks : Hooks) (last next : ObjectId) : Act Unit := do
  addEdge last next
  release hooks next

/-- Appends containers to a chain, each fastened to the one before it. The answer is the last one,
or `last` if there is none. -/
def extendChain (hooks : Hooks) (last : ObjectId) : Nat → Act ObjectId
  | 0 => return last
  | count + 1 => do
      let next ← allocateLink hooks
      fasten hooks last next
      extendChain hooks next count

/-- Allocates a chain of containers, each referring to the next one, and keeps a reference to the
head only. The answer is the head. -/
def chain (hooks : Hooks) (length : Nat) (close : Bool) : Act ObjectId := do
  let head ← allocateLink hooks
  let last ← extendChain hooks head (length - 1)
  if close then
    addEdge last head
  return head

/-- Runs a pass over a generation that is named by number. It is refused while a pass is running.
If the policy at the end of the pass says so, resurrected objects are reported by a fault. -/
def collect (hooks : Hooks) (generation : Int) : Act Nat := do
  if (← Act.collector).collecting then
    throw .reentrantCollection
  match Generation.ofInt? generation, hooks.pass? with
  | none, _ => throw (.invalidConfiguration (.invalidGeneration generation))
  | some _, none => do
      Act.starve
      return 0
  | some g, some pass => do
      let outcome ← Pass.run pass g
      if (← Act.collector).policy = .raise && !outcome.resurrected.isEmpty then
        throw (.resurrectionDetected outcome.resurrected outcome.collected)
      return outcome.collected

/-- Gives back the references that the collector holds to saved garbage; the answer is their
number. -/
def clearGarbage (hooks : Hooks) : Act Nat := do
  let garbage := (← Act.collector).garbage
  -- finalizers that run below see the list empty already
  Act.modifyCollector ({ · with garbage := [] })
  garbage.forM (release hooks)
  return garbage.length

/-- Changes the collector, which must be there. -/
def configure (f : Collector → Except Fault Collector) : Act Unit := do
  let c ← Act.ofExcept (f (← Act.collector))
  Act.modifyCollector fun _ => c

/-- Replaces the thresholds. -/
def setThresholds (counts : PerGeneration Nat) : Act Unit :=
  configure fun c => do
    return { c with tracker := ← c.tracker.setThresholds counts }

/-- Lets allocations start passes, or not. -/
def setEnabled (enabled : Bool) : Act Unit := configure fun c => .ok { c with enabled }

/-- Replaces the debug flags. -/
def setDebug (debug : DebugFlags) : Act Unit := configure fun c => .ok { c with debug }

/-- Replaces the resurrection policy. -/
def setPolicy (policy : ResurrectionPolicy) : Act Unit := configure fun c => .ok { c with policy }

/-- Registers a callback; the answer is its number. -/
def addCallback (phase : CallbackPhase) (script : Script) : Act Nat := do
  let index := (← get).registered
  configure fun c => .ok { c with callbacks := c.callbacks ++ [{ index, phase, script }] }
  modify fun s => { s with registered := index + 1 }
  return index

/-- Keeps the sequence of the containers tracked now; the answer is their number. -/
def snapshot (slot : Nat) : Act Nat := do
  let snapshot := Snapshot.of (← Act.collector).tracker
  modify fun s => { s with snapshots := s.snapshots.insert slot snapshot }
  return snapshot.size

/-- The sequence kept in a slot; an unused slot holds the empty one. -/
def snapshotAt (slot : Nat) : Act Snapshot :=
  return (← get).snapshots.getD slot ⟨0, []⟩

/-- Takes something from the sequence kept in a slot. -/
def advance (slot : Nat) (take : Snapshot → Heap → α × Snapshot) : Act α := do
  let (a, snapshot) := take (← snapshotAt slot) (← Act.heap)
  modify fun s => { s with snapshots := s.snapshots.insert slot snapshot }
  return a

/-- Says which object is being finalized. -/
def announce (name : String) (self : ObjectId) : Act Unit := do
  Act.record (.announced name self)
  Act.print s!"finalizing {name} #{self}\n"

/-- Replaces the collector by a new one that knows none of the present objects; if the settings are
refused there is none afterwards. -/
def attach (settings : Settings) : Act Unit := do
  Act.setMemory { ← Act.memory with collector := none }
  let c ← Act.ofExcept (Collector.start settings)
  Act.setMemory { ← Act.memory with collector := some c }

/-- Removes the collector. -/
def detach : Act Unit := do
  Act.setMemory { ← Act.memory with collector := none }

/-- Answers a question. -/
def ask (self : ObjectId) : Query → Act Answer
  | .contains id => return .bool ((← Act.heap).contains (id.resolve self))
  | .find id => return .object? ((← Act.heap).get? (id.resolve self))
  | .get id => return .object? (some (← Act.ofExcept ((← Act.heap).get (id.resolve self))))
  | .strongCount id =>
      return .nat (← Act.ofExcept ((← Act.heap).get (id.resolve self))).strongCount
  | .references id =>
      return .ids (← Act.ofExcept ((← Act.heap).referents (id.resolve self)))
  | .roots => return .ids (← Act.heap).roots
  | .objectCount => return .nat (← Act.heap).size
  | .freedCount => return .nat (← Act.heap).freed
  | .report => return .report (← Act.memory).report
  | .isEnabled => return .bool (← Act.collector).enabled
  | .thresholds => return .counts (← Act.collector).tracker.thresholds.counts
  | .counts => return .counts (← Act.collector).tracker.counts
  | .tracked => return .ids ((← Act.memory).tracked (← Act.collector))
  | .isTracked id => return .bool ((← Act.collector).tracker.isTracked (id.resolve self))
  | .generationOf id =>
      return .generation? ((← Act.collector).tracker.generationOf? (id.resolve self))
  | .referents id => do
      let _ ← Act.collector
      return .ids (← Act.ofExcept ((← Act.heap).referents (id.resolve self)))
  | .referrers id =>
      return .ids ((← Act.memory).referrers (← Act.collector) (id.resolve self))
  | .stats => return .stats (← Act.collector).stats
  | .totals => do
      let c ← Act.collector
      return .totals c.totalCollected c.totalCollections
  | .isCollecting => return .bool (← Act.collector).collecting
  | .debug => return .flags (← Act.collector).debug
  | .policy => return .policy (← Act.collector).policy
  | .garbage => return .ids (← Act.collector).garbage

/-- Performs a call of a well-behaved host. -/
def call (hooks : Hooks) (self : ObjectId) : Call → Act Answer
  | .allocate kind typeName => return .nat (← allocate hooks kind typeName)
  | .allocateMany kind count => return .nat (← allocateMany hooks kind 0 count)
  | .chain length close => return .nat (← chain hooks length close)
  | .retain id => do
      retain (id.resolve self)
      return .done
  | .release id => do
      release hooks (id.resolve self)
      return .done
  | .addEdge source target => do
      addEdge (source.resolve self) (target.resolve self)
      return .done
  | .removeEdge source target => do
      removeEdge hooks (source.resolve self) (target.resolve self)
      return .done
  | .clearFinalizer id => do
      setFinalizer (id.resolve self) none
      return .done
  | .collect generation => return .nat (← collect hooks generation)
  | .enable => do
      setEnabled true
      return .done
  | .disable => do
      setEnabled false
      return .done
  | .setThresholds counts => do
      setThresholds counts
      return .done
  | .setDebug flags => do
      setDebug flags
      return .done
  | .setPolicy policy => do
      setPolicy policy
      return .done
  | .clearGarbage => return .nat (← clearGarbage hooks)
  | .clearCallbacks => do
      configure fun c => .ok { c with callbacks := [] }
      return .done
  | .snapshot slot => return .nat (← snapshot slot)
  | .snapshotNext slot => return .id? (← advance slot Snapshot.next)
  | .snapshotRemaining slot => return .ids (← advance slot Snapshot.remaining)
  | .snapshotSize slot => return .nat (← snapshotAt slot).size
  | .throw message => throw (.thrown message)
  | .announce name => do
      announce name self
      return .done

/-- Performs an access behind the heap's back. -/
def raw (hooks : Hooks) (self : ObjectId) : RawCall → Act Answer
  | .incRef id => do
      Act.edit (·.incRef (id.resolve self))
      return .done
  | .decRef id => return .nat (← Act.editWith (·.decRef (id.resolve self)))
  | .appendReference id target => do
      Act.edit (·.appendReference (id.resolve self) (target.resolve self))
      return .done
  | .removeReference id target =>
      return .bool (← Act.editWith (·.removeReference (id.resolve self) (target.resolve self)))
  | .setFreeing id value => do
      Act.edit (·.setFreeing (id.resolve self) value)
      return .done
  | .dropReference id => do
      Release.dropReference hooks.finalization (id.resolve self)
      return .done
  | .destroy id => do
      Release.destroy (id.resolve self)
      return .done
  | .runFinalizer id => do
      let _ ← Act.ofExcept ((← Act.heap).get (id.resolve self))
      Release.runFinalizer hooks.finalization (id.resolve self)
      return .done
  | .collectCycles generation candidates options => do
      let candidates := candidates.map (·.resolve self)
      return .cycles (← Cycles.collect hooks.finalization generation candidates options)
  | .attach settings => do
      attach settings
      return .done
  | .detach => do
      detach
      return .done

/-- Performs an operation. -/
def perform (hooks : Hooks) (self : ObjectId) : Op → Act Answer
  | .call c => call hooks self c
  | .ask q => ask self q
  | .raw r => raw hooks self r
  | .setFinalizer id script => do
      setFinalizer (id.resolve self) (some script)
      return .done
  | .addCallback phase script => return .nat (← addCallback phase script)

/-- Runs a script step by step. A fault ends it, unless the step is a tolerant one. -/
def runScript (hooks : Hooks) (self : ObjectId) : Script → Act Unit
  | [] => return
  | step :: rest => do
      let before ← Act.memory
      let outcome ← Act.attempt (perform hooks self step.op)
      Act.record (.performed step.op before outcome)
      match outcome with
      | .ok _ => runScript hooks self rest
      | .error fault => if step.tolerant then runScript hooks self rest else throw fault

end Host

end Reclaim
