import Reclaim.Proofs.Ownership

/-!
# The machine of a shell

The finalizers that a shell installs only link, and it registers no callbacks. What holds of its
machine between operations (`Machine.Rests`) is kept by each operation, along with the number of
root references that the shell holds to each object. Operations on references that the shell holds
succeed, and those that fail leave the machine as it is, apart from a collection that reports what
has been resurrected.
-/

set_option autoImplicit false

namespace Reclaim

open Machine

variable {own : Holdings} {s s' : Machine} {h : Heap} {x y : ObjectId} {op : Op} {n : Nat}

/-- What holds of the machine of a shell between operations, and what the shell holds of it. -/
structure Machine.Rests (own : Holdings) (s : Machine) : Prop where
  settled : s.memory.Settled
  restrains : s.memory.Restrains Op.isLink
  filesAll : s.memory.FilesAll
  present : ∃ c, s.memory.collector = some c
  untold : s.callbacks = []
  owns : s.memory.Owns own

/-- What may happen in the course of an operation of a shell. -/
def Machine.linkScope (s : Machine) (op : Op) : Scope := (s.memory.scope op).restrict Op.isLink

theorem Machine.linkScope_linked (s : Machine) (op : Op) : (s.linkScope op).Linked where
  active _ := trivial
  tame _ hook := hook.2
  passes := trivial

namespace Machine.Rests

theorem congr (R : Rests own s) (same : s'.memory = s.memory) : Rests own s' := by
  obtain ⟨settled, restrains, filesAll, present, untold, owns⟩ := R
  unfold callbacks at untold
  rw [← same] at settled restrains filesAll present untold owns
  exact ⟨settled, restrains, filesAll, present, untold, owns⟩

theorem holds (R : Rests own s) (op : Op) :
    Holds (s.linkScope op) (s.memory.finalizerBudget + op.installs) s Loose.none own s where
  reaches :=
    ((Memory.Settled.at R.settled (R.settled.within op)).restrict R.restrains).here.toReaches
  enough := s.memory.unspent_le_budget op
  untold := R.untold
  owns := R.owns

/-- At the end of an operation the machine is at rest again. -/
theorem of_holds {own' : Holdings} (R : Rests own s)
    (H : Holds (s.linkScope op) n s Loose.none own' s') : Rests own' s' where
  settled := H.there.unrestrict.settled
  restrains := H.there.restrains trivial
  filesAll := Steps.filesAll H.reaches.steps (R.holds op).there.sound R.filesAll
  present := by
    obtain ⟨c, hc⟩ := R.present
    exact H.reaches.exists_collector hc
  untold := H.untold
  owns := H.owns

theorem allocate (R : Rests own s) (kind : Kind) (typeName : String) :
    ∃ s', runWithin 0 (Host.allocate · kind typeName) s = .ok s.memory.heap.nextId s' ∧
      Rests (Function.update own s.memory.heap.nextId (own s.memory.heap.nextId + 1)) s' := by
  obtain ⟨s', run, H⟩ := (R.holds (.ask .roots)).allocate (linkScope_linked s _) kind typeName
  exact ⟨s', run, R.of_holds H⟩

theorem release (R : Rests own s) (mine : 0 < own x) :
    ∃ s', runWithin 0 (Host.release · x) s = .ok () s' ∧
      Rests (Function.update own x (own x - 1)) s' := by
  obtain ⟨s', run, H, -⟩ := (R.holds (.ask .roots)).release (linkScope_linked s _) mine
  exact ⟨s', run, R.of_holds H⟩

theorem clearGarbage (R : Rests own s) :
    ∃ count s', runWithin 0 Host.clearGarbage s = .ok count s' ∧ Rests own s' := by
  obtain ⟨c, hc⟩ := R.present
  obtain ⟨s', run, H, -⟩ := (R.holds (.ask .roots)).clearGarbage (linkScope_linked s _) hc
  exact ⟨c.garbage.length, s', run, R.of_holds H⟩

theorem removeEdge (R : Rests own s) (run : s.memory.heap.cut x y = .ok h) :
    ∃ s', runWithin 0 (Host.removeEdge · x y) s = .ok () s' ∧ Rests own s' := by
  obtain ⟨s', run, H⟩ := (R.holds (.ask .roots)).removeEdge (linkScope_linked s _) run
  exact ⟨s', run, R.of_holds H⟩

theorem collect_cases (R : Rests own s) (i : Int) :
    (∃ e, runWithin 0 (Host.collect · i) s = .error e s) ∨
      ∃ (outcome : PassOutcome) (s' : Machine), Rests own s' ∧
        (runWithin 0 (Host.collect · i) s = .ok outcome.collected s' ∨
          runWithin 0 (Host.collect · i) s =
            .error (.resurrectionDetected outcome.resurrected outcome.collected) s') := by
  rcases (R.holds (.ask .roots)).collect_cases (linkScope_linked s _) i with
    refused | ⟨outcome, s', H, ended⟩
  · exact .inl refused
  · exact .inr ⟨outcome, s', R.of_holds H, ended⟩

/-- An edit of the heap that takes nothing away is a step. -/
theorem edit {own' : Holdings} (R : Rests own s) (op : Op)
    (edit : Heap.Edit (s.linkScope op) (Loose.none, s.memory.heap) (Loose.none, h))
    (freeing : h.FreeingIn fun _ => False) (owns : (s.withHeap h).memory.Owns own') :
    Rests own' (s.withHeap h) :=
  R.of_holds ((R.holds op).next ((R.holds op).there.reach (.edit edit) freeing rfl) R.untold owns)

theorem retain (R : Rests own s) (run : s.memory.heap.retain x = .ok h) :
    Rests (Function.update own x (own x + 1)) (s.withHeap h) :=
  R.edit (.ask .roots) (.retain trivial run) (R.settled.freeing.retain run) (R.owns.retain run)

theorem addEdge (R : Rests own s) (run : s.memory.heap.addEdge x y = .ok h) :
    Rests own (s.withHeap h) := by
  refine R.edit (.ask .roots) (.addEdge trivial run) (R.settled.freeing.addEdge run)
    (R.owns.congr rfl ?_)
  exact Heap.map_get?_addEdge run fun _ => ⟨rfl, rfl⟩

/-- A finalizer that only links may be installed. -/
theorem setFinalizer {script : Script} (R : Rests own s)
    (host : Script.isHostScript script = true) (links : Script.everywhere Op.isLink script = true)
    (run : s.memory.heap.setFinalizer x (some script) = .ok h) : Rests own (s.withHeap h) := by
  obtain ⟨o, ho, e⟩ := Heap.exists_of_setFinalizer run
  have named (y : ObjectId) (hy : y ∈ Op.named (.setFinalizer (.id x) script)) :
      y ∈ (s.linkScope (.setFinalizer (.id x) script)).names :=
    List.mem_toFinset.mpr (List.mem_append_right _ hy)
  have edited : Heap.Edit (s.linkScope (.setFinalizer (.id x) script)) (Loose.none, s.memory.heap)
      (Loose.none, h) := by
    refine .setFinalizer trivial run fun script' e => ?_
    cases e
    exact ⟨⟨⟨host, fun y hy => named y (List.mem_cons_of_mem x hy)⟩, links⟩,
      .inl (named x List.mem_cons_self)⟩
  exact R.edit _ edited (R.settled.freeing.setFinalizer run)
    (R.owns.congr rfl (e ▸ Heap.map_get?_put ho (by rfl)))

/-- A change of the settings leaves books, callbacks and saved garbage alone. -/
theorem configure {c c' : Collector} (R : Rests own s) (hc : s.memory.collector = some c)
    (reconfigured : c.Reconfigured (s.linkScope (.ask .roots)) c')
    (callbacks : c'.callbacks = c.callbacks) : Rests own (s.mapCollector fun _ => c') := by
  have H := R.holds (.ask .roots)
  have same {α : Type} (view : Collector → α) (blind : view c' = view c) :
      (s.mapCollector fun _ => c').memory.collector.map view = s.memory.collector.map view := by
    show Option.map _ (Option.map _ s.memory.collector) = _
    rw [hc, Option.map_some, Option.map_some, Option.map_some, blind]
  have configured : Reaches (s.linkScope (.ask .roots)) false Loose.none s Loose.none
      (fun _ => False) (s.mapCollector fun _ => c') := by
    refine H.there.reach (.configure trivial hc reconfigured) H.there.freeing ?_
    show Option.any _ (Option.map _ s.memory.collector) = Option.any _ s.memory.collector
    rw [hc]
    exact reconfigured.collecting
  refine R.of_holds (H.next configured ?_ (R.owns.congr ?_ fun _ => rfl))
  · have untold := R.untold
    rw [callbacks_of_collector hc, ← callbacks] at untold
    rw [← untold]
    exact callbacks_of_collector (by rw [mapCollector, hc]; rfl)
  · rw [saved_mapCollector hc, Memory.saved_of_collector hc]
    exact reconfigured.garbage

end Machine.Rests

/-- A machine that has just been started has nothing, and nobody holds anything of it. -/
theorem Machine.rests_of_start {settings : Settings}
    (run : Machine.start (some settings) = .ok s) : Rests (fun _ => 0) s := by
  have settled := settled_of_start run
  obtain ⟨c, hc, run⟩ := Heap.exists_of_bind run
  cases run
  have fresh (c' : Collector) (e : some c = some c') :
      ∃ settings, Collector.start settings = .ok c' := by
    cases e
    exact ⟨settings, hc⟩
  have untold : c.callbacks = [] := (Collector.start_fresh hc).2.2.1
  refine ⟨settled, ⟨fun {x script} pending => ?_, fun {c' cb} hc' hcb => ?_⟩,
    (watched_of_empty settled Heap.get?_empty fresh).filesAll, ⟨c, rfl⟩, untold,
    Memory.owns_of_empty Heap.get?_empty (saved_of_fresh fresh)⟩
  · rw [Heap.pending?, Heap.get?_empty] at pending
    cases pending
  · cases hc'
    rw [untold] at hcb
    cases hcb

end Reclaim
