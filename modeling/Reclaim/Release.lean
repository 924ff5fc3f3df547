import Reclaim.Machine

/-!
# Releasing references

Giving back the last reference to an object frees it, and with it everything that only it kept
alive. The objects to be freed wait in a queue. `drain` works the queue off as far as no finalizer
is involved: each of its rounds frees one live object, so as many rounds as there are live objects
are enough. `cascade` goes on from there by running the finalizer that `drain` has stopped at.

Hooks are given as a parameter, together with a bound on their number: no object is finalized twice,
so the finalizers present at the start and those that hooks install bound the rounds of `cascade`.
-/

namespace Reclaim

/-- How the finalizers of dying objects are run. -/
structure Finalization where
  /-- No more than this number of finalizers can still be run. -/
  limit : Nat
  /-- What the finalizer of an object does. -/
  run : ObjectId → Script → Act Unit

namespace Release

/-- Runs the finalizer of an object, if one is pending. The object is marked first, so that a hook
which drops the last reference to its own object is not entered again; a fault of the hook is
reported and goes no further. -/
def runFinalizer (fin : Finalization) (id : ObjectId) : Act Unit := do
  match ((← Act.heap).get? id).bind (·.pendingFinalizer?) with
  | none => return
  | some script =>
      -- marked before the hook runs, for it may let go of its own object
      Act.setHeap ((← Act.heap).modify id (·.markFinalized))
      Act.record (.finalizing id)
      match ← Act.attempt (fin.run id script) with
      | .ok _ => return
      | .error fault =>
          Act.post (.warning s!"exception in finalizer of object #{id}: {fault.message}")

/-- Gives back the temporary reference under which a dying object has been finalized. If the hook has
taken a reference, the object is not to be freed. -/
def afterFinalizer (id : ObjectId) : Act Bool := do
  let count ← Act.editWith (·.decRef id)
  if count > 0 then
    Act.post (.warning s!"object #{id} resurrected by its finalizer")
    return false
  else
    Act.edit (·.setFreeing id true)
    return true

/-- Runs the finalizer of an object whose count has reached zero, under a reference of its own.
The answer is whether the object is to be freed. -/
def finalizeBeforeFree (fin : Finalization) (id : ObjectId) : Act Bool := do
  Act.setHeap ((← Act.heap).modify id fun o => { o.incRef with freeing := false })
  runFinalizer fin id
  afterFinalizer id

/-- Takes an object out of the heap and tells the collector. -/
def destroy (id : ObjectId) : Act Unit := do
  let m ← Act.memory
  let m' ← Act.ofExcept (m.destroy id)
  Act.record (.freeing id)
  Act.setMemory m'

/-- Strikes from the front of the queue what is not to be freed: handles of dead objects, and
objects that a finalizer has referred to since they were queued, which are not freed after all. -/
def settle (h : Heap) : List ObjectId → Heap × List ObjectId
  | [] => (h, [])
  | id :: queue =>
      match h.get? id with
      | none => settle h queue
      | some o =>
          if o.strongCount > 0 then
            settle (h.modify id ({ · with freeing := false })) queue
          else
            (h, id :: queue)

/-- Gives back the references that a dying object held, in order. An object that loses its last
one is put at the front of the queue; one that is queued already stays where it is. -/
def surrender (queue : List ObjectId) : List ObjectId → Act (List ObjectId)
  | [] => return queue
  | id :: rest => do
      match (← Act.heap).get? id with
      | none => surrender queue rest
      | some o =>
          -- an object without references that is queued already was counted down before
          if o.freeing && o.strongCount == 0 then
            surrender queue rest
          else do
            let count ← Act.editWith (·.decRef id)
            if count == 0 && !o.freeing then do
              Act.edit (·.setFreeing id true)
              surrender (id :: queue) rest
            else
              surrender queue rest

/-- Frees the queued objects, and those that they alone kept alive, until the queue is empty or a
finalizer has to run: then the answer is the object it belongs to and the rest of the queue. -/
def drain : Nat → List ObjectId → Act (Option (ObjectId × List ObjectId))
  | 0, queue => do
      Act.setHeap (settle (← Act.heap) queue).1
      return none
  | rounds + 1, queue => do
      let (h, queue) := settle (← Act.heap) queue
      Act.setHeap h
      match queue with
      | [] => return none
      | id :: queue =>
          match h.get? id with
          | none => return none
          | some o =>
              -- the finalizer may change the queue's objects, so it runs between two drains
              if o.hasPendingFinalizer then
                return some (id, queue)
              else do
                Act.setHeap (h.put id o.clearReferences)
                let queue ← surrender queue o.references
                destroy id
                drain rounds queue

/-- Frees the queued objects and those that they alone kept alive, running the finalizers that are
met on the way. -/
def cascade (fin : Finalization) : Nat → List ObjectId → Act Unit
  | 0, _ => Act.starve
  | rounds + 1, queue => do
      match ← drain (← Act.heap).size queue with
      | none => return
      | some (id, queue) =>
          if ← finalizeBeforeFree fin id then
            cascade fin rounds (id :: queue)
          else
            cascade fin rounds queue

/-- Gives back one reference to an object; if it was the last one, the object is freed. -/
def dropReference (fin : Finalization) (id : ObjectId) : Act Unit := do
  let count ← Act.editWith (·.decRef id)
  if count > 0 then
    return
  else
    Act.edit (·.setFreeing id true)
    cascade fin (fin.limit + 1) [id]

end Release

end Reclaim
