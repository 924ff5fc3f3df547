import Reclaim.Script
import Std.Data.ExtTreeMap

/-!
# Objects

An object of the heap with its counts, its outgoing references in insertion order, its finalizer
and the scratch fields of the reachability analysis. The operations here concern one object on its
own; `Object.decRef` and `Object.removeRoot` refuse to count below zero.
-/

namespace Reclaim

/-- Marks of the reachability analysis. -/
inductive Color where
  /-- Not known to be reachable. -/
  | white
  /-- Reachable, with references still to be followed. -/
  | gray
  /-- Reachable, with all references followed. -/
  | black
  deriving DecidableEq

/-- An object of the heap. -/
structure Object where
  id : ObjectId
  kind : Kind
  typeName : String
  /-- References to the object, those held by the host included. -/
  strongCount : Nat := 0
  /-- References to the object that the host holds. -/
  rootCount : Nat := 0
  /-- The age that the object was last given; it means something for containers only. -/
  generation : Int := 0
  /-- Handles of the objects referred to, in insertion order and with repetitions. -/
  references : List ObjectId := []
  /-- The object is queued to be freed. -/
  freeing : Bool := false
  finalizer : Option Script := none
  /-- A finalizer of the object has been run; no other one will be. -/
  finalized : Bool := false
  color : Color := .white
  /-- References to the object from outside of the set under analysis. -/
  gcRefs : Int := 0

/-- Objects by handle, in ascending order. -/
abbrev ObjectTable := Std.ExtTreeMap ObjectId Object

namespace Object

/-- Only containers hold references and are looked at by passes. -/
def isContainer (o : Object) : Bool := o.kind = .container

/-- Counts one more reference. -/
def incRef (o : Object) : Object := { o with strongCount := o.strongCount + 1 }

/-- Counts one reference less. -/
def decRef (o : Object) : Except Fault Object :=
  match o.strongCount with
  | 0 => .error (.inconsistentCount (.underflow o.id))
  | n + 1 => .ok { o with strongCount := n }

/-- Counts one more reference held by the host. -/
def addRoot (o : Object) : Object := { o with rootCount := o.rootCount + 1 }

/-- Counts one reference less held by the host. -/
def removeRoot (o : Object) : Except Fault Object :=
  match o.rootCount with
  | 0 => .error (.invalidReference o.id .noRoot)
  | n + 1 => .ok { o with rootCount := n }

/-- Adds a reference behind the others. -/
def appendReference (o : Object) (target : ObjectId) : Object :=
  { o with references := o.references ++ [target] }

/-- Removes the first reference to `target`, if there is one. -/
def removeReference? (o : Object) (target : ObjectId) : Option Object :=
  if target ∈ o.references then some { o with references := o.references.erase target } else none

/-- The object without its references. -/
def clearReferences (o : Object) : Object := { o with references := [] }

/-- The finalizer that still has to run before the object may be freed. -/
def pendingFinalizer? (o : Object) : Option Script :=
  if o.finalized then none else o.finalizer

/-- A finalizer still has to run before the object may be freed. -/
def hasPendingFinalizer (o : Object) : Bool := o.pendingFinalizer?.isSome

/-- Marks that a finalizer of the object has been run. -/
def markFinalized (o : Object) : Object := { o with finalized := true }

/-- The object as texts name it: its type and its handle. -/
def label (o : Object) : String := s!"<{o.typeName} #{o.id}>"

end Object

end Reclaim
