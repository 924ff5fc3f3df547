import Reclaim.Host

/-!
# Running operations from outside

Hooks are scripts of the operations that set hooks off, so their meaning is tied together here. No
object is finalized twice, and a finalizer is installed either before the run or by an instruction
that names its object. The number of pending finalizers and of such instructions is therefore a
budget that no run exceeds, and hooks within hooks are given one less. Passes do not nest, so inside
of a pass no pass has to be given a meaning.
-/

namespace Reclaim

namespace Hooks

/-- The hooks inside of a pass, of which no more than a number of finalizers can still be run. -/
def inPass : Nat → Hooks
  | 0 => { finalization := ⟨0, fun _ _ => Act.starve⟩, pass? := none }
  | budget + 1 => {
      finalization := ⟨budget + 1, fun self script => Host.runScript (inPass budget) self script⟩
      pass? := none }

/-- The hooks of a pass. The steps of a callback have no object of their own. -/
def ofPass (budget : Nat) : PassHooks where
  finalization := (inPass budget).finalization
  callback script := Host.runScript (inPass budget) 0 script

/-- The hooks outside of passes, of which no more than a number of finalizers can still be run. -/
def outside : Nat → Hooks
  | 0 => { finalization := ⟨0, fun _ _ => Act.starve⟩, pass? := some (ofPass 0) }
  | budget + 1 => {
      finalization := ⟨budget + 1, fun self script => Host.runScript (outside budget) self script⟩
      pass? := some (ofPass (budget + 1)) }

end Hooks

namespace Memory

/-- The finalizers that are pending, each counted together with the instructions inside its script
that install another, and the instructions of callbacks that install one. -/
def finalizerBudget (m : Memory) : Nat :=
  let ofObject := fun (o : Object) => o.pendingFinalizer?.elim 0 (1 + Script.installs ·)
  let ofCallbacks := fun (c : Collector) => c.callbacks.foldl (· + Script.installs ·.script) 0
  m.heap.toList.foldl (· + ofObject ·) 0 + m.collector.elim 0 ofCallbacks

end Memory

/-- What an operation leaves for the one who asked for it. -/
structure Record where
  outcome : Except Fault Answer
  /-- What happened, in order. -/
  moments : List Moment
  console : Console

namespace Machine

/-- A machine with an empty heap and, if settings are given, a collector. -/
def start (settings? : Option Settings) : Except Fault Machine := do
  match settings? with
  | none => return {}
  | some settings => return { memory := { collector := some (← Collector.start settings) } }

/-- The machine with an empty journal and an empty console. -/
def forget (s : Machine) : Machine := { s with journal := [], console := {} }

/-- Runs an action that sets off hooks, under the budget that the memory and the instructions of
the action itself give. -/
def runWithin (installs : Nat) (action : Hooks → Act α) : Act α := do
  action (.outside ((← Act.memory).finalizerBudget + installs))

/-- Performs an operation from outside and collects what it leaves. -/
def perform (s : Machine) (op : Op) : Record × Machine :=
  let finish := fun (outcome : Except Fault Answer) (s : Machine) =>
    ({ outcome, moments := s.journal.reverse, console := s.console : Record }, s)
  match runWithin op.installs (Host.perform · 0 op) s.forget with
  | .ok a s => finish (.ok a) s
  | .error e s => finish (.error e) s

/-- Performs operations one after the other. A failing one does not stop the others. -/
def performAll (s : Machine) : List Op → List Record × Machine
  | [] => ([], s)
  | op :: rest =>
      let (record, s) := s.perform op
      let (records, s) := s.performAll rest
      (record :: records, s)

end Machine

namespace Object

/-- Runs the finalizer of an object that belongs to no heap, unless one has been run before. The
answer includes what the hook has announced. -/
def runFinalizer (o : Object) : Except Fault Unit × List (String × ObjectId) × Object :=
  match o.pendingFinalizer? with
  | none => (.ok (), [], o)
  | some script =>
      let announced := fun (s : Machine) => s.journal.reverse.filterMap fun m =>
        match m.event with
        | .announced name id => some (name, id)
        | _ => none
      match Host.runScript (.outside 0) o.id script {} with
      | .ok _ s => (.ok (), announced s, o.markFinalized)
      | .error e s => (.error e, announced s, o.markFinalized)

end Object

end Reclaim
