import Reclaim.Proofs.Nesting

/-!
# Relations that last

Some things are to be said of a run, whatever its actions do to the heap: that the books of the
collector are kept in a certain way, or that the sequences a host keeps follow the journal. Such a
relation between an earlier and a later machine lasts (`Machine.Lasting`) if it goes on when nothing
happens but a change of the heap, or an event that is no step of a hook. Every action then upholds
it, provided that the hooks do that the action sets off; what is left to be looked at are the
operations that are not plain (`Op.isPlain`), and the steps of hooks as they are noted
(`Machine.Lasting.runScript`).
-/

set_option autoImplicit false

namespace Reclaim

variable {α β : Type} {R : Machine → Machine → Prop}

namespace Act

variable {act other : Act α} {s s' : Machine}

/-- Whatever its outcome, the action leads to a machine that stands in a relation to the one that it
started from. -/
def Upholds (R : Machine → Machine → Prop) (act : Act α) : Prop := ∀ s, act.Always s (R s)

theorem Upholds.of_ok {a : α} (upholds : act.Upholds R) (run : act s = .ok a s') : R s s' := by
  have related := upholds s
  unfold Always at related
  rwa [run] at related

theorem Upholds.attempt (upholds : act.Upholds R) : (Act.attempt act).Upholds R := fun s => by
  obtain ⟨outcome, s', run, related⟩ := attempt_of_always (upholds s)
  exact always_of_ok run related

theorem Upholds.ite {p : Prop} [Decidable p] (yes : act.Upholds R) (no : other.Upholds R) :
    (if p then act else other).Upholds R := by
  split
  · exact yes
  · exact no

end Act

open Act

/-- Finalizers uphold a relation. -/
def Finalization.Upholds (R : Machine → Machine → Prop) (fin : Finalization) : Prop :=
  ∀ id script, (fin.run id script).Upholds R

/-- The hooks of a pass uphold a relation. -/
structure PassHooks.Upholds (R : Machine → Machine → Prop) (hooks : PassHooks) : Prop where
  finalization : hooks.finalization.Upholds R
  callback : ∀ script, (hooks.callback script).Upholds R

/-- The hooks that an operation sets off uphold a relation, and so do the passes that it starts. -/
structure Hooks.Upholds (R : Machine → Machine → Prop) (hooks : Hooks) : Prop where
  finalization : hooks.finalization.Upholds R
  pass : ∀ {pass}, hooks.pass? = some pass → ∀ g, (Pass.run pass g).Upholds R

/-- The call may set off hooks or start a pass. -/
def Call.setsOff : Call → Bool
  | .allocate _ _ | .allocateMany _ _ | .chain _ _ | .release _ | .removeEdge _ _ | .collect _
  | .clearGarbage => true
  | _ => false

/-- The event is the end of a step of a hook. -/
def Event.isStep : Event → Bool
  | .performed .. => true
  | _ => false

/-- The operation leaves the sequences that the host keeps alone, and replaces neither the
thresholds nor the collector. -/
def Op.isPlain : Op → Bool
  | .call (.setThresholds _) | .call (.snapshot _) | .call (.snapshotNext _)
  | .call (.snapshotRemaining _) | .raw (.attach _) | .raw .detach => false
  | _ => true

namespace Release

theorem finalizeBeforeFree_apply {fin : Finalization} {s : Machine} {x : ObjectId} {o : Object}
    (hx : s.memory.heap.get? x = some o) :
    finalizeBeforeFree fin x s = (runFinalizer fin x >>= fun _ => afterFinalizer x)
      (s.withHeap (s.memory.heap.put x { o.incRef with freeing := false })) := by
  have modified := Heap.modify_eq_put hx (fun o => { o.incRef with freeing := false })
  simp only [finalizeBeforeFree, bind_apply, heap_apply, setHeap_apply, modified]

end Release

namespace Machine

/-- A relation between an earlier machine and a later one that goes on over changes which leave the
pace of the collector and the sequences of the host alone, and over events other than steps of
hooks. -/
structure Lasting (R : Machine → Machine → Prop) : Prop where
  trans : ∀ {s s' s''}, R s s' → R s' s'' → R s s''
  aside : ∀ {s s'}, s'.journal = s.journal → s'.snapshots = s.snapshots →
    s'.memory.pace? = s.memory.pace? → R s s'
  log : ∀ s {event}, event.isStep = false → R s (s.log event)

namespace Lasting

variable (W : Lasting R) {s s' : Machine}
include W

theorem refl (s : Machine) : R s s := W.aside rfl rfl rfl

/-! ### Sequencing -/

theorem still {act : Act α} (still : Still act) : act.Upholds R :=
  fun s => (still s).mono fun _ same => same ▸ W.refl s

theorem bind {act : Act α} {f : α → Act β} (first : act.Upholds R) (next : ∀ a, (f a).Upholds R) :
    (act >>= f).Upholds R := fun s =>
  Always.bind (first s) (fun a s' _ related => (next a s').mono fun _ => W.trans related)
    fun _ _ _ related => related

theorem answer {act : Act α} (upholds : act.Upholds R) (g : α → β) :
    (act >>= fun a => pure (g a)).Upholds R :=
  W.bind upholds fun a => W.still (still_pure (g a))

theorem forM {g : α → Act Unit} (upholds : ∀ a, (g a).Upholds R) (xs : List α) :
    (xs.forM g).Upholds R := by
  induction xs with
  | nil => exact W.still (still_pure ())
  | cons a xs ih => exact W.bind (upholds a) fun _ => ih

/-! ### Primitive actions -/

/-- An action that leaves memory, the journal and the sequences of the host alone. -/
theorem modify {f : Machine → Machine} (same : ∀ s, (f s).memory = s.memory ∧
    (f s).journal = s.journal ∧ (f s).snapshots = s.snapshots) :
    (modify f : Act Unit).Upholds R := fun s => by
  obtain ⟨memory, journal, snapshots⟩ := same s
  exact always_of_ok (modify_apply f s) (W.aside journal snapshots (by rw [memory]))

theorem post (notice : Notice) : (Act.post notice).Upholds R :=
  W.modify (by intro; exact ⟨rfl, rfl, rfl⟩)

theorem print (text : String) : (Act.print text).Upholds R :=
  W.modify (by intro; exact ⟨rfl, rfl, rfl⟩)

theorem starve : Act.starve.Upholds R := W.modify (by intro; exact ⟨rfl, rfl, rfl⟩)

theorem record {event : Event} (other : event.isStep = false) : (Act.record event).Upholds R :=
  fun s => W.log s other

theorem setHeap (h : Heap) : (Act.setHeap h).Upholds R := fun _ => W.aside rfl rfl rfl

theorem edit (f : Heap → Except Fault Heap) : (Act.edit f).Upholds R :=
  W.bind (W.still still_heap) fun _ => W.bind (W.still (still_ofExcept _)) fun h => W.setHeap h

theorem editWith (f : Heap → Except Fault (α × Heap)) : (Act.editWith f).Upholds R :=
  W.bind (W.still still_heap) fun _ => W.bind (W.still (still_ofExcept _)) fun (_, h) =>
    W.answer (W.setHeap h) _

/-- A change of the collector that leaves its pace alone. -/
theorem modifyCollector {f : Collector → Collector} (same : ∀ c, (f c).pace = c.pace) :
    (Act.modifyCollector f).Upholds R := fun s => by
  refine W.aside rfl rfl ?_
  show Option.map _ (Option.map f s.memory.collector) = _
  rw [Option.map_map]
  exact congrArg (Option.map · _) (funext same)

/-! ### Releasing references -/

section Release

variable {fin : Finalization}

theorem runFinalizer (F : fin.Upholds R) (x : ObjectId) :
    (Release.runFinalizer fin x).Upholds R := by
  refine W.bind (W.still still_heap) fun h => ?_
  cases (h.get? x).bind (·.pendingFinalizer?) with
  | none => exact W.still (still_pure ())
  | some script =>
    refine W.bind (W.still still_heap) fun h => W.bind (W.setHeap _) fun _ =>
      W.bind (W.record rfl) fun _ => W.bind (F x script).attempt fun outcome => ?_
    cases outcome with
    | ok _ => exact W.still (still_pure ())
    | error fault => exact W.post _

theorem afterFinalizer (x : ObjectId) : (Release.afterFinalizer x).Upholds R :=
  W.bind (W.editWith _) fun _ => .ite (W.answer (W.post _) _) (W.answer (W.edit _) _)

theorem finalizeBeforeFree (F : fin.Upholds R) (x : ObjectId) :
    (Release.finalizeBeforeFree fin x).Upholds R :=
  W.bind (W.still still_heap) fun _ => W.bind (W.setHeap _) fun _ =>
    W.bind (W.runFinalizer F x) fun _ => W.afterFinalizer x

theorem destroy (x : ObjectId) : (Release.destroy x).Upholds R := fun s => by
  cases run : s.memory.destroy x with
  | error e =>
    have refused : Release.destroy x s = .error e s := by
      simp only [Release.destroy, bind_apply, memory_apply, run, ofExcept_error]
    exact always_of_error refused (W.refl s)
  | ok m =>
    have destroyed : Release.destroy x s = .ok () ((s.log (.freeing x)).withMemory m) := by
      simp only [Release.destroy, bind_apply, memory_apply, run, ofExcept_ok, record_apply,
        setMemory_apply]
    exact always_of_ok destroyed
      (W.trans (W.log s rfl) (W.aside rfl rfl (Memory.pace?_destroy run)))

theorem surrender (queue xs : List ObjectId) : (Release.surrender queue xs).Upholds R := by
  induction xs generalizing queue with
  | nil => exact W.still (still_pure queue)
  | cons y xs ih =>
    unfold Release.surrender
    refine W.bind (W.still still_heap) fun h => ?_
    split
    · exact ih queue
    · exact .ite (ih queue) (W.bind (W.editWith _) fun _ =>
        .ite (W.bind (W.edit _) fun _ => ih _) (ih queue))

theorem drain (rounds : Nat) (queue : List ObjectId) :
    (Release.drain rounds queue).Upholds R := by
  induction rounds generalizing queue with
  | zero => exact W.bind (W.still still_heap) fun _ => W.answer (W.setHeap _) _
  | succ rounds ih =>
    unfold Release.drain
    refine W.bind (W.still still_heap) fun h => W.bind (W.setHeap _) fun _ => ?_
    split
    · exact W.still (still_pure _)
    · split
      · exact W.still (still_pure _)
      · exact .ite (W.still (still_pure _)) (W.bind (W.setHeap _) fun _ =>
          W.bind (W.surrender _ _) fun queue => W.bind (W.destroy _) fun _ => ih queue)

theorem cascade (F : fin.Upholds R) (rounds : Nat) (queue : List ObjectId) :
    (Release.cascade fin rounds queue).Upholds R := by
  induction rounds generalizing queue with
  | zero => exact W.starve
  | succ rounds ih =>
    unfold Release.cascade
    refine W.bind (W.still still_heap) fun h => W.bind (W.drain _ _) fun met => ?_
    split
    · exact W.still (still_pure ())
    · exact W.bind (W.finalizeBeforeFree F _) fun _ => .ite (ih _) (ih _)

theorem dropReference (F : fin.Upholds R) (x : ObjectId) :
    (Release.dropReference fin x).Upholds R :=
  W.bind (W.editWith _) fun _ => .ite (W.still (still_pure ()))
    (W.bind (W.edit _) fun _ => W.cascade F _ _)

/-! ### Collecting cycles -/

theorem divide (xs : List ObjectId) : (Cycles.divide xs).Upholds R := by
  refine W.bind (W.still still_heap) fun h => W.bind (W.setHeap _) fun _ => ?_
  split
  · exact W.still (still_throw _)
  · exact W.answer (W.setHeap _) _

theorem finalizeAll (F : fin.Upholds R) (xs : List ObjectId) :
    (Cycles.finalizeAll fin xs).Upholds R := by
  induction xs with
  | nil => exact W.still (still_pure false)
  | cons x xs ih =>
    exact W.bind (W.still still_heap) fun h =>
      .ite (W.bind (W.runFinalizer F x) fun _ => W.answer ih fun _ => true) ih

theorem report (verdict : String) (xs : List ObjectId) :
    (Cycles.report verdict xs).Upholds R := by
  refine W.forM (fun x => W.bind (W.still still_heap) fun h => ?_) xs
  split
  · exact W.post _
  · exact W.still (still_pure ())

theorem sweep (F : fin.Upholds R) (options : PassOptions) (garbage : List ObjectId) :
    (Cycles.sweep fin options garbage).Upholds R := by
  have free (x : ObjectId) : (do
      if options.logCollectable then
        Cycles.report "collectable" [x]
      Release.destroy x : Act Unit).Upholds R :=
    .ite (W.bind (W.report _ _) fun _ => W.destroy x) (W.destroy x)
  exact .ite (W.forM (fun _ => W.edit _) garbage)
    (W.bind (W.still still_heap) fun _ => W.bind (W.setHeap _) fun _ =>
      W.bind (W.forM free garbage) fun _ => W.forM (W.dropReference F) _)

theorem reclaim (recheck : Bool → Bool) (F : fin.Upholds R) (options : PassOptions)
    (xs : List ObjectId) : (Cycles.reclaimWith recheck fin options xs).Upholds R := by
  refine W.bind (W.finalizeAll F xs) fun ran => W.bind (W.still still_heap) fun h => ?_
  have swept (resurrected garbage : List ObjectId) :
      (Cycles.sweep fin options garbage >>= fun _ => pure (xs.filter (!h.contains ·) ++ garbage,
        resurrected, if options.saveGarbage then garbage else [])).Upholds R :=
    W.answer (W.sweep F options garbage) _
  have rest (resurrected garbage : List ObjectId) :=
    Upholds.ite (p := options.logUncollectable = true)
      (W.bind (W.report "uncollectable" resurrected) fun _ => swept resurrected garbage)
      (swept resurrected garbage)
  exact .ite (W.bind (W.divide _) fun found => rest found.1 found.2)
    (W.bind (W.still (still_pure _)) fun found => rest found.1 found.2)

theorem collectCycles (F : fin.Upholds R) (g : Int) (xs : List ObjectId) (options : PassOptions) :
    (Cycles.collect fin g xs options).Upholds R :=
  W.bind (W.still still_heap) fun _ => W.bind (W.divide _) fun _ =>
    .ite (W.bind (W.still (still_pure _)) fun _ => W.answer (W.still still_heap) _)
      (W.bind (W.reclaim id F options _) fun _ => W.answer (W.still still_heap) _)

end Release

/-! ### Passes -/

section Pass

variable {hooks : PassHooks}

theorem tellAll (H : hooks.Upholds R) (phase : Phase) (info : PassInfo) :
    (Pass.tellAll hooks phase info).Upholds R := by
  refine W.bind (W.still still_collector) fun c => W.forM (fun cb => ?_) c.callbacks
  refine W.bind (W.record rfl) fun _ => .ite ?_ (W.still (still_pure ()))
  refine W.bind (H.callback cb.script).attempt fun outcome => ?_
  cases outcome with
  | ok _ => exact W.still (still_pure ())
  | error fault => exact W.post _

theorem reportStats (text : Collector → String) : (Pass.reportStats text).Upholds R :=
  W.bind (W.still still_collector) fun _ => .ite (W.post _) (W.still (still_pure ()))

theorem opening (H : hooks.Upholds R) (g : Generation) : (Pass.opening hooks g).Upholds R :=
  W.bind (W.tellAll H _ _) fun _ => W.bind (W.reportStats _) fun _ => W.still still_collector

theorem aftermath (H : hooks.Upholds R) (g : Generation) (result : CycleReport)
    (due : Option Generation) : (Pass.aftermath hooks g result due).Upholds R :=
  W.bind (W.forM (fun _ => W.post _) _) fun _ => W.bind (W.reportStats _) fun _ =>
    W.answer (W.tellAll H _ _) _

/-- A pass upholds what it upholds to enter it into the books. -/
theorem pass (H : hooks.Upholds R) (g : Generation)
    (book : ∀ options result, (Pass.book g options result).Upholds R) :
    (Pass.run hooks g).Upholds R := by
  have mark (collecting : Bool) :
      (Act.modifyCollector ({ · with collecting })).Upholds R := W.modifyCollector fun _ => rfl
  have body : (Pass.body hooks g).Upholds R :=
    W.bind (W.opening H g) fun c => W.bind (W.collectCycles H.finalization _ _ _) fun result =>
      W.bind (book _ _) fun due => W.aftermath H g result due
  exact W.bind (mark true) fun _ => W.bind body.attempt fun outcome =>
    W.bind (mark false) fun _ => W.still (still_ofExcept outcome)

theorem runDue {runPass : Generation → Act PassOutcome} (run : ∀ g, (runPass g).Upholds R)
    (rounds : Nat) (g : Generation) : (Pass.runDue runPass rounds g).Upholds R := by
  induction rounds generalizing g with
  | zero => exact W.still (still_pure ())
  | succ rounds ih =>
    refine W.bind (run g) fun outcome => ?_
    split
    · exact W.still (still_pure ())
    · exact ih _

end Pass

/-! ### Operations -/

section Host

variable {hooks : Hooks}

/-- A change of the settings that leaves the pace alone. -/
theorem configure {f : Collector → Except Fault Collector}
    (same : ∀ c c', f c = .ok c' → c'.pace = c.pace) : (Host.configure f).Upholds R := fun s => by
  rcases Host.configure_cases f s with ⟨e, refused⟩ | ⟨c, c', hc, run, configured⟩
  · exact always_of_error refused (W.refl s)
  · refine always_of_ok configured (W.aside rfl rfl ?_)
    show Option.map _ (Option.map _ s.memory.collector) = Option.map _ s.memory.collector
    rw [hc, Option.map_some, Option.map_some, Option.map_some, same c c' run]

theorem addCallback (phase : CallbackPhase) (script : Script) :
    (Host.addCallback phase script).Upholds R := by
  have still_get : Still (get : Act Machine) := fun _ => rfl
  refine W.bind (W.still still_get) fun s => W.bind (W.configure fun c c' run => ?_) fun _ =>
    W.answer (W.modify (by intro; exact ⟨rfl, rfl, rfl⟩)) _
  cases run
  rfl

/-- A new object is counted for the youngest generation only. -/
theorem insert (s : Machine) (kind : Kind) (typeName : String) :
    R s (s.withMemory (s.memory.allocate kind typeName).2) :=
  W.aside rfl rfl (Memory.pace?_allocate s.memory kind typeName)

theorem allocate (H : hooks.Upholds R) (kind : Kind) (typeName : String) :
    (Host.allocate hooks kind typeName).Upholds R := fun s => by
  have after (m : Memory) : (Host.afterAllocation hooks m).Upholds R := by
    unfold Host.afterAllocation
    refine .ite ?_ (W.still (still_pure ()))
    cases pass : hooks.pass? with
    | none => exact W.starve
    | some pass => exact W.runDue (H.pass ‹_›) 3 .youngest
  refine Always.of_eq (Host.allocate_apply hooks kind typeName s) ?_
  exact (W.answer (after _) _ _).mono fun _ => W.trans (W.insert s kind typeName)

theorem release (F : hooks.finalization.Upholds R) (x : ObjectId) :
    (Host.release hooks x).Upholds R :=
  W.bind (W.edit _) fun _ => W.dropReference F x

theorem allocateMany (H : hooks.Upholds R) (kind : Kind) (last : ObjectId) (count : Nat) :
    (Host.allocateMany hooks kind last count).Upholds R := by
  induction count generalizing last with
  | zero => exact W.still (still_pure last)
  | succ count ih => exact W.bind (W.allocate H kind _) ih

theorem extendChain (H : hooks.Upholds R) (last : ObjectId) (count : Nat) :
    (Host.extendChain hooks last count).Upholds R := by
  induction count generalizing last with
  | zero => exact W.still (still_pure last)
  | succ count ih =>
    exact W.bind (W.allocate H _ _) fun next =>
      W.bind (W.bind (W.edit _) fun _ => W.release H.finalization next) fun _ => ih next

theorem chain (H : hooks.Upholds R) (length : Nat) (close : Bool) :
    (Host.chain hooks length close).Upholds R :=
  W.bind (W.allocate H _ _) fun head => W.bind (W.extendChain H head _) fun _ =>
    .ite (W.answer (W.edit _) _) (W.still (still_pure head))

theorem collect (H : hooks.Upholds R) (i : Int) : (Host.collect hooks i).Upholds R := by
  refine W.bind (W.still still_collector) fun c => .ite (W.still (still_throw _)) ?_
  split
  · exact W.still (still_throw _)
  · exact W.answer W.starve _
  · next pass _ =>
    refine W.bind (H.pass ‹_› _) fun outcome => W.bind (W.still still_collector) fun c => ?_
    exact .ite (W.still (still_throw _)) (W.still (still_pure _))

theorem clearGarbage (F : hooks.finalization.Upholds R) : (Host.clearGarbage hooks).Upholds R :=
  W.bind (W.still still_collector) fun c => W.bind (W.modifyCollector (by intro; rfl)) fun _ =>
    W.answer (W.forM (W.release F) c.garbage) _

theorem announce (name : String) (self : ObjectId) : (Host.announce name self).Upholds R :=
  W.bind (W.record rfl) fun _ => W.print _

/-- A plain call that sets off no hooks. -/
theorem quietCall {c : Call} (plain : (Op.call c).isPlain = true) (quiet : c.setsOff = false)
    (self : ObjectId) : (Host.call hooks self c).Upholds R := by
  cases c with
  | retain _ | addEdge _ _ | clearFinalizer _ => exact W.answer (W.edit _) _
  | enable | disable | setDebug _ | setPolicy _ | clearCallbacks =>
    exact W.answer (W.configure fun c c' run => by cases run; rfl) _
  | snapshotSize slot => exact W.answer (W.still (Host.still_snapshotAt slot)) _
  | throw message => exact W.still (still_throw _)
  | announce name => exact W.answer (W.announce name self) _
  | setThresholds _ | snapshot _ | snapshotNext _ | snapshotRemaining _ => cases plain
  | _ => cases quiet

/-- A call that sets off hooks. -/
theorem loudCall (H : hooks.Upholds R) {c : Call} (loud : c.setsOff = true) (self : ObjectId) :
    (Host.call hooks self c).Upholds R := by
  cases c with
  | allocate kind typeName => exact W.answer (W.allocate H kind typeName) _
  | allocateMany kind count => exact W.answer (W.allocateMany H kind 0 count) _
  | chain length close => exact W.answer (W.chain H length close) _
  | release id => exact W.answer (W.release H.finalization _) _
  | removeEdge source target =>
    exact W.answer (W.bind (W.edit _) fun _ => W.dropReference H.finalization _) _
  | collect generation => exact W.answer (W.collect H generation) _
  | clearGarbage => exact W.answer (W.clearGarbage H.finalization) _
  | _ => cases loud

/-- An access behind the heap's back that leaves the collector in its place. -/
theorem raw (F : hooks.finalization.Upholds R) {r : RawCall} (plain : (Op.raw r).isPlain = true)
    (self : ObjectId) : (Host.raw hooks self r).Upholds R := by
  cases r with
  | incRef _ | appendReference _ _ | setFreeing _ _ => exact W.answer (W.edit _) _
  | decRef _ | removeReference _ _ => exact W.answer (W.editWith _) _
  | dropReference id => exact W.answer (W.dropReference F _) _
  | destroy id => exact W.answer (W.destroy _) _
  | runFinalizer id =>
    exact W.bind (W.still still_heap) fun _ => W.bind (W.still (still_ofExcept _)) fun _ =>
      W.answer (W.runFinalizer F _) _
  | collectCycles generation candidates options => exact W.answer (W.collectCycles F _ _ _) _
  | attach _ | detach => cases plain

theorem ask (self : ObjectId) (q : Query) : (Host.ask self q).Upholds R :=
  W.still (Host.still_ask self q)

/-- Every plain operation upholds what its hooks uphold. -/
theorem perform (H : hooks.Upholds R) {op : Op} (plain : op.isPlain = true) (self : ObjectId) :
    (Host.perform hooks self op).Upholds R := by
  cases op with
  | call c =>
    cases sets : c.setsOff with
    | true => exact W.loudCall H sets self
    | false => exact W.quietCall plain sets self
  | ask q => exact W.ask self q
  | raw r => exact W.raw H.finalization plain self
  | setFinalizer id script => exact W.answer (W.edit _) _
  | addCallback phase script => exact W.answer (W.addCallback phase script) _

/-- A script upholds a relation if each of its steps does once it has been noted. -/
theorem runScript {self : ObjectId} (performed : ∀ {op s outcome s'},
      attempt (Host.perform hooks self op) s = .ok outcome s' →
        R s (s'.log (.performed op s.memory outcome)))
    (script : Script) : (Host.runScript hooks self script).Upholds R := by
  induction script with
  | nil => exact W.still (still_pure ())
  | cons step rest ih =>
    intro s
    obtain ⟨outcome, s', run⟩ := exists_attempt (Host.perform hooks self step.op) s
    exact Host.runScript_always run (performed run) ((ih _).mono fun _ => W.trans (performed run))

end Host

end Lasting

end Machine

end Reclaim
