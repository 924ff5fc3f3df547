import Reclaim.Object

/-!
# The heap

The live objects by handle. Each operation of a host is one function on the heap: it gives the new
heap or a fault, so an operation that fails has changed nothing. Counts are kept in step with
references by `retain`, `addEdge` and the two first halves `giveUpRoot` and `cut`, which take a
reference out of its holder and leave the count to `decRef`.

`Heap.get?` is the view of a heap. What each way of changing the table does to it is stated by
`get?_put`, `get?_modify` and `get?_erase`.
-/

namespace Reclaim

/-- The live objects, the next handle to give out, and the number of objects freed so far. -/
structure Heap where
  objects : ObjectTable := ∅
  nextId : ObjectId := 1
  freed : Nat := 0

namespace Heap

/-- The live object with a handle, if there is one. -/
def get? (h : Heap) (id : ObjectId) : Option Object := h.objects[id]?

/-- The live object with a handle; no other handle refers to anything. -/
def get (h : Heap) (id : ObjectId) : Except Fault Object :=
  match h.get? id with
  | some o => .ok o
  | none => .error (.invalidReference id .unknown)

/-- The handle is that of a live object. -/
def contains (h : Heap) (id : ObjectId) : Bool := (h.get? id).isSome

/-- The number of live objects. -/
def size (h : Heap) : Nat := h.objects.size

/-- The live objects by ascending handle. -/
def toList (h : Heap) : List Object := h.objects.toList.map (·.2)

/-- The handles that the host holds references to, ascending. -/
def roots (h : Heap) : List ObjectId :=
  (h.objects.toList.filter (·.2.rootCount > 0)).map (·.1)

/-- Changes the object with a handle, if it is live. -/
def modify (h : Heap) (id : ObjectId) (f : Object → Object) : Heap :=
  { h with objects := h.objects.modify id f }

/-- Makes `o` the object with a handle. -/
def put (h : Heap) (id : ObjectId) (o : Object) : Heap :=
  { h with objects := h.objects.insert id o }

/-- Puts a new object into the heap, with the one reference that its allocator holds. -/
def allocate (h : Heap) (kind : Kind) (typeName : String) : Object × Heap :=
  let o : Object := { id := h.nextId, kind, typeName, strongCount := 1, rootCount := 1 }
  (o, { h.put o.id o with nextId := h.nextId + 1 })

/-- Takes an object out of the heap; the objects it refers to keep their counts. -/
def erase (h : Heap) (id : ObjectId) : Heap :=
  { h with objects := h.objects.erase id, freed := h.freed + 1 }

/-- Gives the host one more reference. -/
def retain (h : Heap) (id : ObjectId) : Except Fault Heap := do
  let o ← h.get id
  return h.put id o.addRoot.incRef

/-- Takes one reference from the host. The count still includes it. -/
def giveUpRoot (h : Heap) (id : ObjectId) : Except Fault Heap := do
  let o ← h.get id
  return h.put id (← o.removeRoot)

/-- Gives `source` a reference to `target`. -/
def addEdge (h : Heap) (source target : ObjectId) : Except Fault Heap := do
  let o ← h.get source
  let _ ← h.get target
  if o.isContainer then
    return (h.put source (o.appendReference target)).modify target Object.incRef
  else
    throw (.invalidReference source .notContainer)

/-- Takes from `source` its first reference to `target`. The count still includes it. -/
def cut (h : Heap) (source target : ObjectId) : Except Fault Heap := do
  let o ← h.get source
  match o.removeReference? target with
  | some o => return h.put source o
  | none => throw (.invalidReference target (.noEdge source))

/-- Gives an object the hook that runs before it is freed, or takes it away. -/
def setFinalizer (h : Heap) (id : ObjectId) (finalizer : Option Script) : Except Fault Heap := do
  let o ← h.get id
  return h.put id { o with finalizer }

/-- Counts one reference less; the answer is the new count. -/
def decRef (h : Heap) (id : ObjectId) : Except Fault (Nat × Heap) := do
  let o ← (← h.get id).decRef
  return (o.strongCount, h.put id o)

/-- Counts one more reference without giving it to anyone. -/
def incRef (h : Heap) (id : ObjectId) : Except Fault Heap := do
  return h.put id (← h.get id).incRef

/-- Writes a reference into an object without counting it. -/
def appendReference (h : Heap) (id target : ObjectId) : Except Fault Heap := do
  return h.put id ((← h.get id).appendReference target)

/-- Strikes a reference from an object without counting it; the answer tells if there was one. -/
def removeReference (h : Heap) (id target : ObjectId) : Except Fault (Bool × Heap) := do
  match (← h.get id).removeReference? target with
  | some o => return (true, h.put id o)
  | none => return (false, h)

/-- Sets or clears the mark of the objects queued to be freed. -/
def setFreeing (h : Heap) (id : ObjectId) (value : Bool) : Except Fault Heap := do
  return h.put id { ← h.get id with freeing := value }

@[simp] theorem get?_put (h : Heap) (id : ObjectId) (o : Object) (j : ObjectId) :
    (h.put id o).get? j = if id = j then some o else h.get? j := by
  simp only [put, get?, Std.ExtTreeMap.getElem?_insert, Std.LawfulEqCmp.compare_eq_iff_eq]

@[simp] theorem get?_modify (h : Heap) (id : ObjectId) (f : Object → Object) (j : ObjectId) :
    (h.modify id f).get? j = if id = j then (h.get? j).map f else h.get? j := by
  simp only [modify, get?, Std.ExtTreeMap.getElem?_modify, Std.LawfulEqCmp.compare_eq_iff_eq]
  split
  · next e => rw [e]
  · rfl

@[simp] theorem get?_erase (h : Heap) (id j : ObjectId) :
    (h.erase id).get? j = if id = j then none else h.get? j := by
  simp only [erase, get?, Std.ExtTreeMap.getElem?_erase, Std.LawfulEqCmp.compare_eq_iff_eq]

end Heap

end Reclaim
