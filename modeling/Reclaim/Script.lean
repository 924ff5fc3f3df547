import Reclaim.Settings

/-!
# Operations and scripts

What a host can ask of the heap, as data. Finalizers and pass callbacks are scripts of the same
operations, so an operation can carry scripts, and these further ones, to any depth.

`Op.isHostOp` singles out the operations of a well-behaved host: those that never touch reference
counts or reference lists behind the heap's back.
-/

namespace Reclaim

/-- Objects without references of their own, and objects that hold them. -/
inductive Kind where
  | atom
  | container
  deriving DecidableEq

namespace Kind

/-- The name of a kind, also the type name of objects allocated without one. -/
def name : Kind → String
  | atom => "atom"
  | container => "container"

/-- The kind with a given number. -/
def ofInt? : Int → Option Kind
  | 0 => some atom
  | 1 => some container
  | _ => none

/-- The name of the kind with a given number; other numbers name no kind. -/
def nameOfInt (n : Int) : String := ((ofInt? n).map name).getD "unknown"

end Kind

/-- The type name of objects allocated in bulk. -/
def plainTypeName : String := "object"

/-- An object named by an operation: by handle, or as the object whose finalizer is running. -/
inductive Operand where
  | self
  | id (value : ObjectId)
  deriving DecidableEq

namespace Operand

/-- The handle meant, where `self` is the handle of the dying object. -/
def resolve (self : ObjectId) : Operand → ObjectId
  | .self => self
  | .id n => n

end Operand

/-- The two ends of a pass. -/
inductive Phase where
  | start
  | stop
  deriving DecidableEq

/-- At which ends of a pass the steps of a callback run. -/
inductive CallbackPhase where
  | start
  | stop
  | both
  deriving DecidableEq

/-- Whether the steps of a callback run at an end of a pass. -/
def CallbackPhase.covers : CallbackPhase → Phase → Bool
  | .both, _ => true
  | .start, .start => true
  | .stop, .stop => true
  | _, _ => false

/-- What a pass keeps and reports. -/
structure PassOptions where
  /-- Unreachable containers are retained instead of freed. -/
  saveGarbage : Bool := false
  logCollectable : Bool := false
  logUncollectable : Bool := false
  deriving DecidableEq

/-- Questions, which change nothing. -/
inductive Query where
  | contains (id : Operand)
  | find (id : Operand)
  | get (id : Operand)
  | strongCount (id : Operand)
  | references (id : Operand)
  | roots
  | objectCount
  | freedCount
  | report
  | isEnabled
  | thresholds
  | counts
  | tracked
  | isTracked (id : Operand)
  | generationOf (id : Operand)
  | referents (id : Operand)
  | referrers (id : Operand)
  | stats
  | totals
  | isCollecting
  | debug
  | policy
  | garbage

/-- What a host does with the heap and its collector, hooks apart. -/
inductive Call where
  | allocate (kind : Kind) (typeName : String)
  /-- `count` allocations in a row. -/
  | allocateMany (kind : Kind) (count : Nat)
  /-- A chain of containers of which only the head stays rooted; `close` adds a reference from
  the last one back to the head. -/
  | chain (length : Nat) (close : Bool)
  | retain (id : Operand)
  | release (id : Operand)
  | addEdge (source target : Operand)
  | removeEdge (source target : Operand)
  | clearFinalizer (id : Operand)
  | collect (generation : Int)
  | enable
  | disable
  | setThresholds (counts : PerGeneration Nat)
  | setDebug (flags : DebugFlags)
  | setPolicy (policy : ResurrectionPolicy)
  | clearGarbage
  | clearCallbacks
  /-- Keeps the handles that are tracked now under the number `slot`. -/
  | snapshot (slot : Nat)
  | snapshotNext (slot : Nat)
  | snapshotRemaining (slot : Nat)
  | snapshotSize (slot : Nat)
  | throw (message : String)
  /-- Says that the object bound to `name` is being finalized. -/
  | announce (name : String)

/-- Access behind the heap's back: it can break the agreement of counts and references. -/
inductive RawCall where
  | incRef (id : Operand)
  | decRef (id : Operand)
  | appendReference (id target : Operand)
  | removeReference (id target : Operand)
  | setFreeing (id : Operand) (value : Bool)
  | dropReference (id : Operand)
  | destroy (id : Operand)
  | runFinalizer (id : Operand)
  /-- Analyses and sweeps the given candidates without a collector's bookkeeping. -/
  | collectCycles (generation : Int) (candidates : List Operand) (options : PassOptions)
  | attach (settings : Settings)
  | detach

/-- One line of a script; a tolerant one lets the script go on after a fault. -/
structure Step (α : Type) where
  op : α
  tolerant : Bool := false

/-- An operation on the heap and its collector. -/
inductive Op where
  | call (call : Call)
  | ask (query : Query)
  | raw (call : RawCall)
  | setFinalizer (id : Operand) (script : List (Step Op))
  | addCallback (phase : CallbackPhase) (script : List (Step Op))

/-- What a hook does when it runs. -/
abbrev Script := List (Step Op)

mutual

/-- The number of instructions in an operation that install a finalizer, those inside its scripts
included. -/
def Op.installs : Op → Nat
  | .setFinalizer _ script => 1 + Script.installs script
  | .addCallback _ script => Script.installs script
  | _ => 0

/-- The number of instructions in a script that install a finalizer, to any depth. -/
def Script.installs : List (Step Op) → Nat
  | [] => 0
  | step :: rest => Step.installs step + Script.installs rest

/-- The number of instructions in a step that install a finalizer, to any depth. -/
def Step.installs : Step Op → Nat
  | ⟨op, _⟩ => Op.installs op

end

mutual

/-- An operation of a well-behaved host, all of whose scripts hold such operations only. -/
def Op.isHostOp : Op → Bool
  | .call _ => true
  | .ask _ => true
  | .raw _ => false
  | .setFinalizer _ script => Script.isHostScript script
  | .addCallback _ script => Script.isHostScript script

/-- A script of a well-behaved host. -/
def Script.isHostScript : List (Step Op) → Bool
  | [] => true
  | step :: rest => Step.isHostStep step && Script.isHostScript rest

/-- A step of a well-behaved host. -/
def Step.isHostStep : Step Op → Bool
  | ⟨op, _⟩ => Op.isHostOp op

end

end Reclaim
