import Mathlib.Data.Finset.Card
import Mathlib.Logic.Relation
import Reclaim.Proofs.Actions
import Reclaim.Proofs.Balance
import Reclaim.Proofs.Buckets

/-!
# Steps of a machine

Whatever an operation does, hooks included, it does in steps: one edit of the heap that keeps the
balance, one object taken out, one finalizer entered, one pass entered into the books.
`Machine.Step` lists them, with the loose references before and after. What holds along every run is
shown for each step once: memory stays sound (`Machine.Step.sound`), and objects keep their kind and
never become unfinalized again (`Machine.Step.later`).

A `Scope` bounds what hooks may do: which objects they give finalizers to, which scripts they
install and which operations they perform. What operations do with their own hand is told apart by
`Deed`; in a scope that permits no deed only the library itself takes steps. While a pass collects
no other one starts: what its finalizers do lies within the calm part of the scope (`Scope.calm`),
where ages stay as they are (`Machine.Steps.ages`).
-/

set_option autoImplicit false

namespace Reclaim

/-- What a host does with its own hand; all else the library does on its account. -/
inductive Deed where
  | allocate
  | retain
  | giveUp
  | link
  | cut
  | finalizer
  | configure
  | disown
  /-- To have passes started. -/
  | collect

/-- What a call does with its own hand. -/
def Call.deeds : Call → List Deed
  | .allocate _ _ => [.allocate, .collect]
  | .allocateMany _ _ => [.allocate, .collect]
  | .chain _ _ => [.allocate, .collect, .link, .giveUp]
  | .retain _ => [.retain]
  | .release _ => [.giveUp]
  | .addEdge _ _ => [.link]
  | .removeEdge _ _ => [.cut]
  | .collect _ => [.collect]
  | .clearFinalizer _ => [.finalizer]
  | .enable => [.configure]
  | .disable => [.configure]
  | .setThresholds _ => [.configure]
  | .setDebug _ => [.configure]
  | .setPolicy _ => [.configure]
  | .clearCallbacks => [.configure]
  | .clearGarbage => [.disown, .giveUp]
  | _ => []

/-- What an operation does with its own hand. -/
def Op.deeds : Op → List Deed
  | .call c => c.deeds
  | .ask _ => []
  | .raw _ => []
  | .setFinalizer _ _ => [.finalizer]
  | .addCallback _ _ => [.configure]

/-- What may happen in the course of a run. -/
structure Scope where
  /-- The objects that may be given a finalizer. -/
  names : Finset ObjectId
  /-- The scripts that may be installed as hooks. -/
  hooks : Script → Prop
  /-- The operations that hooks may perform. -/
  allows : Op → Prop
  /-- What may be done by the hand of a host. -/
  may : Deed → Prop
  /-- Passes may keep their garbage. -/
  saving : Prop
  /-- Passes may run to their end. Where none does, the books of the collector do not matter. -/
  passes : Prop
  /-- The objects whose references may be taken from them although others still refer to them. -/
  sweeps : ObjectId → Prop
  host : ∀ {op}, allows op → op.isHostOp = true
  deeds : ∀ {op deed}, allows op → deed ∈ op.deeds → may deed
  steps : ∀ {script step}, hooks script → step ∈ script → allows step.op
  finalizer : ∀ {id script}, allows (.setFinalizer id script) →
    hooks script ∧ ∀ x, id = .id x → x ∈ names
  callback : ∀ {phase script}, allows (.addCallback phase script) → hooks script
  flags : ∀ {flags}, allows (.call (.setDebug flags)) → flags.has .saveAll = true → saving
  swept : passes → ∀ x, sweeps x

/-- Whatever a host does may be done. -/
def Scope.Active (sc : Scope) : Prop := ∀ deed, sc.may deed

/-- What may happen while a pass is at work, before it is entered into the books. -/
def Scope.calm (sc : Scope) : Scope := { sc with passes := False, swept := False.elim }

/-- What may happen if nothing is forbidden to the hand of a host. -/
def Scope.free (sc : Scope) : Scope where
  __ := sc
  may _ := True
  saving := True
  deeds _ _ := trivial
  flags _ _ := trivial

namespace Object

/-- The object without the scratch fields of the analysis. -/
def unmarked (o : Object) : Object := { o with color := .white, gcRefs := 0 }

/-- What no edit changes. -/
def fixed (o : Object) : Kind × Int × Bool := (o.kind, o.generation, o.finalized)

end Object

namespace Heap

/-- Two heaps differ in the scratch fields of the analysis only. -/
structure Unmarked (h h' : Heap) : Prop where
  nextId : h'.nextId = h.nextId
  freed : h'.freed = h.freed
  objects : ∀ x, (h'.get? x).map Object.unmarked = (h.get? x).map Object.unmarked

/-- The object has been finalized, or is dead for good. -/
def isSpent (h : Heap) (x : ObjectId) : Bool := x < h.nextId && (h.get? x).all (·.finalized)

/-- The objects of a heap and what has become of them later. -/
structure Later (h h' : Heap) : Prop where
  nextId : h.nextId ≤ h'.nextId
  old : ∀ {x p}, x < h.nextId → h'.get? x = some p →
    ∃ o, h.get? x = some o ∧ p.kind = o.kind ∧ o.generation ≤ p.generation ∧
      (o.finalized = true → p.finalized = true)

end Heap

/-- An edit of the heap, with the loose references before and after. -/
inductive Heap.Edit (sc : Scope) : Loose × Heap → Loose × Heap → Prop where
  /-- The analysis writes scratch fields. -/
  | mark {L h h'} : h.Unmarked h' → Edit sc (L, h) (L, h')
  /-- A loose reference is given back. -/
  | lose {L h x o} : h.get? x = some o → Edit sc (L.add [x], h) (L, h.put x o.lose)
  /-- A queued object that is held again is not freed after all. -/
  | spare {L h x o} : h.get? x = some o → 0 < o.strongCount →
      Edit sc (L, h) (L, h.put x { o with freeing := false })
  /-- An object is held while its finalizer runs. -/
  | hold {L h x o} : h.get? x = some o →
      Edit sc (L, h) (L.add [x], h.put x { o.incRef with freeing := false })
  /-- The references of an unreachable object are taken from it, when it has lost its last reference
  or is swept. -/
  | unlink {L h x o} : h.get? x = some o → ¬ h.Reachable x → o.strongCount = 0 ∨ sc.sweeps x →
      Edit sc (L, h) (L.add o.references, h.put x o.clearReferences)
  /-- The collector takes a root reference to garbage that it keeps. -/
  | save {L h x h'} : sc.saving → h.retain x = .ok h' → Edit sc (L, h) (L, h')
  | retain {L h x h'} : sc.may .retain → h.retain x = .ok h' → Edit sc (L, h) (L, h')
  | giveUpRoot {L h x h'} : sc.may .giveUp → h.giveUpRoot x = .ok h' →
      Edit sc (L, h) (L.add [x], h')
  | addEdge {L h x y h'} : sc.may .link → h.addEdge x y = .ok h' → Edit sc (L, h) (L, h')
  | cut {L h x y h'} : sc.may .cut → h.cut x y = .ok h' → Edit sc (L, h) (L.add [y], h')
  | setFinalizer {L h x h'} {finalizer : Option Script} : sc.may .finalizer →
      h.setFinalizer x finalizer = .ok h' →
      (∀ script, finalizer = some script →
        sc.hooks script ∧ (x ∈ sc.names ∨ h.isSpent x = true)) →
      Edit sc (L, h) (L, h')

/-- Something that is noted down without further meaning for memory. -/
def Event.isNote : Event → Bool
  | .announced .. => true
  | .calledBack .. => true
  | .performed .. => true
  | .finalizing _ => false
  | .freeing _ => false

/-- Memory after a pass over `g` has been entered into the books. -/
def Memory.book (m : Memory) (c : Collector) (g : Generation) (saves : Bool) (r : CycleReport) :
    Memory where
  heap := { m.heap with objects := (c.tracker.passCompleted g r.survivors m.heap.objects).2.1 }
  collector := m.collector.map fun c' =>
    let c' := { c' with tracker := (c.tracker.passCompleted g r.survivors m.heap.objects).1 }.addStats
      g r.collected.length r.resurrected.length
    if saves then { c' with garbage := c'.garbage ++ r.collected } else c'

/-- A change of a collector's settings that leaves its books alone. -/
structure Collector.Reconfigured (sc : Scope) (c c' : Collector) : Prop where
  buckets : c'.tracker.buckets = c.tracker.buckets
  counts : c'.tracker.counts = c.tracker.counts
  collections : c'.tracker.collections = c.tracker.collections
  collecting : c'.collecting = c.collecting
  stats : c'.stats = c.stats
  garbage : c'.garbage = c.garbage
  callbacks : ∀ cb ∈ c'.callbacks, cb ∈ c.callbacks ∨ sc.hooks cb.script
  saving : c'.debug.has .saveAll = true → c.debug.has .saveAll = true ∨ sc.saving

/-- A step of a machine, with the loose references before and after. -/
inductive Machine.Step (sc : Scope) : Loose × Machine → Loose × Machine → Prop where
  /-- Console, snapshots and the like change. -/
  | aside {L s s'} : s'.memory = s.memory → s'.journal = s.journal → s'.starved = s.starved →
      Step sc (L, s) (L, s')
  | note {L s} {event : Event} : event.isNote = true → Step sc (L, s) (L, s.log event)
  | edit {L L' s h'} : Heap.Edit sc (L, s.memory.heap) (L', h') → Step sc (L, s) (L', s.withHeap h')
  /-- The finalizer of an object is entered. -/
  | finalize {L s x o script} : s.memory.heap.get? x = some o →
      o.pendingFinalizer? = some script →
      Step sc (L, s) (L, (s.withHeap (s.memory.heap.put x o.markFinalized)).log (.finalizing x))
  /-- An object that nobody holds and that holds nothing is taken out. -/
  | destroy {L s x o m'} : s.memory.heap.get? x = some o → o.references = [] →
      o.rootCount = 0 → s.memory.heap.inEdges x = 0 → s.memory.destroy x = .ok m' →
      Step sc (L, s) (L.clear x, (s.log (.freeing x)).withMemory m')
  /-- A pass begins or ends. -/
  | collecting {L s} (value : Bool) :
      Step sc (L, s) (L, s.mapCollector ({ · with collecting := value }))
  | book {L s c} (g : Generation) (saves : Bool) (r : CycleReport) : sc.passes →
      (saves = true → sc.saving ∧ ∀ x ∈ r.collected, x < s.memory.heap.nextId) →
      s.memory.collector = some c →
      (∀ x ∈ r.survivors, ∃ o, s.memory.heap.get? x = some o ∧ o.kind = .container ∧
        o.generation ≤ (g.next.val : Int)) →
      Step sc (L, s) (L, s.withMemory (s.memory.book c g saves r))
  | allocate {L s} (kind : Kind) (typeName : String) : sc.may .allocate →
      Step sc (L, s) (L, s.withMemory (s.memory.allocate kind typeName).2)
  | configure {L s c c'} : sc.may .configure → s.memory.collector = some c → c.Reconfigured sc c' →
      Step sc (L, s) (L, s.mapCollector fun _ => c')
  /-- The list of saved garbage is emptied, before its root references are given back. -/
  | disown {L s} : sc.may .disown → Step sc (L, s) (L, s.mapCollector ({ · with garbage := [] }))

/-- Any number of steps. -/
abbrev Machine.Steps (sc : Scope) : Loose × Machine → Loose × Machine → Prop :=
  Relation.ReflTransGen (Machine.Step sc)

end Reclaim
