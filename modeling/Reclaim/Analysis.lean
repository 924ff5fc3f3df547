import Reclaim.Generations
import Reclaim.Heap

/-!
# Reachability from outside

Which of some members of the heap are reachable from outside of the set they form, told from
reference counts alone. `externalCounts` writes into each member how many of its references do not
come from members; `markReachable` then blackens every member that such a reference leads to, and
leaves the others white. Only the two scratch fields of members are written.
-/

namespace Reclaim

namespace Analysis

/-- The members as a set. -/
def index (members : List ObjectId) : IdSet := .ofList members

/-- Starts the external count of a member at its reference count. -/
def startCount (h : Heap) (id : ObjectId) : Heap :=
  h.modify id fun o => { o with gcRefs := o.strongCount }

/-- Takes one reference from the external count of a member; others are passed over. -/
def discount (among : IdSet) (h : Heap) (id : ObjectId) : Heap :=
  if among.contains id then h.modify id fun o => { o with gcRefs := o.gcRefs - 1 } else h

/-- Takes the references that a member holds from the external counts of the members it refers
to. -/
def discountReferences (among : IdSet) (h : Heap) (id : ObjectId) : Heap :=
  match h.get? id with
  | none => h
  | some o => o.references.foldl (discount among) h

/-- Writes into each member the number of references to it that no member holds. -/
def externalCounts (h : Heap) (members : List ObjectId) : Heap :=
  members.foldl (discountReferences (index members)) (members.foldl startCount h)

/-- The first member that is referred to more often than it counts. -/
def deficient? (h : Heap) (members : List ObjectId) : Option ObjectId :=
  members.find? fun id => (h.get? id).any (·.gcRefs < 0)

/-- Gives a member a mark. -/
def setColor (color : Color) (h : Heap) (id : ObjectId) : Heap :=
  h.modify id fun o => { o with color }

/-- Marks a white object gray and puts it on the stack; others are passed over. -/
def gray (state : Heap × List ObjectId) (id : ObjectId) : Heap × List ObjectId :=
  match state.1.get? id with
  | some o => if o.color = .white then (setColor .gray state.1 id, id :: state.2) else state
  | none => state

/-- Grays the members that references from outside lead to. -/
def grayExternal (state : Heap × List ObjectId) (id : ObjectId) : Heap × List ObjectId :=
  if (state.1.get? id).any (·.gcRefs > 0) then gray state id else state

/-- Marks an object black and grays the white members that it refers to. -/
def blacken (among : IdSet) (h : Heap) (stack : List ObjectId) (id : ObjectId) :
    Heap × List ObjectId :=
  match h.get? id with
  | none => (h, stack)
  | some o => (o.references.filter (among.contains ·)).foldl gray (setColor .black h id, stack)

/-- Blackens the objects on the stack until it is empty, for a bounded number of rounds. -/
def propagate (among : IdSet) : Nat → Heap × List ObjectId → Heap × List ObjectId
  | 0, state => state
  | _, (h, []) => (h, [])
  | rounds + 1, (h, id :: stack) => propagate among rounds (blacken among h stack id)

/-- The marks and the stack to begin with: gray are the members that references from outside lead
to, and the others are white. -/
def opening (h : Heap) (members : List ObjectId) : Heap × List ObjectId :=
  members.foldl grayExternal (members.foldl (setColor .white) h, [])

/-- Marks the members and leaves the stack, which is empty then: a member is put on the stack only
once, so as many rounds as there are members are enough. -/
def mark (h : Heap) (members : List ObjectId) : Heap × List ObjectId :=
  propagate (index members) members.length (opening h members)

/-- Marks each member black if it is reachable from outside and white if it is not. -/
def markReachable (h : Heap) (members : List ObjectId) : Heap := (mark h members).1

/-- The object has been blackened. -/
def isBlack (h : Heap) (id : ObjectId) : Bool := (h.get? id).any (·.color = .black)

/-- Puts a member to those that are black or to the others, and makes it white again. -/
def sort (state : Heap × List ObjectId × List ObjectId) (id : ObjectId) :
    Heap × List ObjectId × List ObjectId :=
  let (h, black, others) := state
  if isBlack h id then (setColor .white h id, id :: black, others)
  else (setColor .white h id, black, id :: others)

/-- Members by mark, in order: those that are black and the others. All become white again. -/
def partition (h : Heap) (members : List ObjectId) : Heap × List ObjectId × List ObjectId :=
  let (h, black, others) := members.foldl sort (h, [], [])
  (h, black.reverse, others.reverse)

end Analysis

end Reclaim
