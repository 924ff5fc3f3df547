import Reclaim.Proofs.Impartiality

/-!
# Budgets

Hooks are run under a budget, and a run that uses it up is cut short (`Machine.starved`). A larger
budget makes no difference to a run that is not: `Act.Extends` says of two actions that the second
one does what the first one does unless the first one is cut short, and that an action which begins
where a run has been cut short leaves it so. It is kept by sequencing, and it holds of all
operations if it holds of the hooks they set off (`Host.perform_extends`); hooks with a larger
budget extend those with a smaller one (`Hooks.outside_extends`).
-/

set_option autoImplicit false

namespace Reclaim

open Machine

variable {α β : Type} {n m : Nat} {x : ObjectId} {s s' : Machine}

namespace Act

/-- The second action does what the first one does, unless the first one is cut short. -/
structure Extends (act act' : Act α) : Prop where
  starved : ∀ s, s.starved = true → act.Always s (·.starved = true)
  same : ∀ s, act.Always s (·.starved = true) ∨ act' s = act s

variable {act act' other other' : Act α} {f f' : α → Act β}

/-- An action extends itself if it leaves a run that has been cut short so. -/
theorem extends_self (starved : ∀ s, s.starved = true → act.Always s (·.starved = true)) :
    Extends act act := ⟨starved, fun _ => .inr rfl⟩

theorem Still.extends (still : Still act) : Extends act act :=
  extends_self fun s cut => (still s).mono fun _ same => same ▸ cut

theorem Extends.bind (first : Extends act act') (next : ∀ a, Extends (f a) (f' a)) :
    Extends (act >>= f) (act' >>= f') where
  starved s cut := Always.bind (first.starved s cut) (fun a s' _ cut => (next a).starved s' cut)
    fun _ _ _ cut => cut
  same s := by
    rcases first.same s with cut | same
    · left
      exact Always.bind cut (fun a s' _ cut => (next a).starved s' cut) fun _ _ _ cut => cut
    · cases run : act s with
      | ok a s₁ =>
        have goes : (act >>= f) s = f a s₁ := by rw [bind_apply, run]
        rcases (next a).same s₁ with cut | same'
        · left
          exact .of_eq goes cut
        · right
          rw [goes, bind_apply, same, run]
          exact same'
      | error e s₁ =>
        right
        rw [bind_apply, bind_apply, same, run]

theorem Extends.answer (ext : Extends act act') (g : α → β) :
    Extends (act >>= fun a => pure (g a)) (act' >>= fun a => pure (g a)) :=
  ext.bind fun a => (still_pure (g a)).extends

theorem Extends.attempt (ext : Extends act act') :
    Extends (Act.attempt act) (Act.attempt act') where
  starved s cut := by
    obtain ⟨outcome, s', run, cut'⟩ := attempt_of_always (ext.starved s cut)
    exact always_of_ok run cut'
  same s := by
    rcases ext.same s with cut | same
    · left
      obtain ⟨outcome, s', run, cut'⟩ := attempt_of_always cut
      exact always_of_ok run cut'
    · right
      rw [attempt_apply, attempt_apply, same]

theorem Extends.ite {p : Prop} [Decidable p] (yes : Extends act act')
    (no : Extends other other') :
    Extends (if p then act else other) (if p then act' else other') := by
  split
  · exact yes
  · exact no

theorem Extends.forM {g g' : α → Act Unit} (ext : ∀ a, Extends (g a) (g' a)) (xs : List α) :
    Extends (xs.forM g) (xs.forM g') := by
  induction xs with
  | nil => exact (still_pure ()).extends
  | cons a xs ih => exact (ext a).bind fun _ => ih

/-- What gives up is extended by everything. -/
theorem starve_extends (act' : Act Unit) : Extends starve act' where
  starved _ _ := rfl
  same _ := .inl rfl

theorem starve_answer_extends (b : β) (act' : Act β) :
    Extends (starve >>= fun _ => pure b) act' where
  starved _ _ := rfl
  same _ := .inl rfl

/-! ### Primitive actions -/

/-- An action that does something else than giving up. -/
theorem modify_extends {f : Machine → Machine} (same : ∀ s, (f s).starved = s.starved) :
    Extends (modify f : Act Unit) (modify f) :=
  extends_self fun s cut => always_of_ok (modify_apply f s) ((same s).trans cut)

theorem post_extends (notice : Notice) : Extends (Act.post notice) (Act.post notice) :=
  modify_extends fun _ => rfl

theorem print_extends (text : String) : Extends (Act.print text) (Act.print text) :=
  modify_extends fun _ => rfl

theorem record_extends (event : Event) : Extends (record event) (record event) :=
  modify_extends fun _ => rfl

theorem setHeap_extends (h : Heap) : Extends (setHeap h) (setHeap h) := modify_extends fun _ => rfl

theorem setMemory_extends (m : Memory) : Extends (setMemory m) (setMemory m) :=
  modify_extends fun _ => rfl

theorem modifyCollector_extends (f : Collector → Collector) :
    Extends (modifyCollector f) (modifyCollector f) := modify_extends fun _ => rfl

theorem edit_extends (f : Heap → Except Fault Heap) : Extends (edit f) (edit f) :=
  still_heap.extends.bind fun _ => (still_ofExcept _).extends.bind fun h => setHeap_extends h

theorem editWith_extends (f : Heap → Except Fault (α × Heap)) :
    Extends (editWith f) (editWith f) :=
  still_heap.extends.bind fun _ => (still_ofExcept _).extends.bind fun (_, h) =>
    (setHeap_extends h).answer _

end Act

open Act

/-! ## Releasing references -/

/-- The second way of running finalizers does what the first one does, unless that gives up. -/
structure Finalization.Extends (fin fin' : Finalization) : Prop where
  limit : fin.limit ≤ fin'.limit
  run : ∀ id script, (fin.run id script).Extends (fin'.run id script)

namespace Release

variable {fin fin' : Finalization}

theorem runFinalizer_extends (F : fin.Extends fin') (x : ObjectId) :
    (runFinalizer fin x).Extends (runFinalizer fin' x) := by
  refine still_heap.extends.bind fun h => ?_
  cases (h.get? x).bind (·.pendingFinalizer?) with
  | none => exact (still_pure ()).extends
  | some script =>
    refine still_heap.extends.bind fun h => (setHeap_extends _).bind fun _ =>
      (record_extends _).bind fun _ => (F.run x script).attempt.bind fun outcome => ?_
    cases outcome with
    | ok _ => exact (still_pure ()).extends
    | error fault => exact post_extends _

theorem afterFinalizer_extends (x : ObjectId) :
    (afterFinalizer x).Extends (afterFinalizer x) :=
  (editWith_extends _).bind fun _ => .ite ((post_extends _).answer _) ((edit_extends _).answer _)

theorem finalizeBeforeFree_extends (F : fin.Extends fin') (x : ObjectId) :
    (finalizeBeforeFree fin x).Extends (finalizeBeforeFree fin' x) :=
  still_heap.extends.bind fun _ => (setHeap_extends _).bind fun _ =>
    (runFinalizer_extends F x).bind fun _ => afterFinalizer_extends x

theorem destroy_extends (x : ObjectId) : (destroy x).Extends (destroy x) :=
  still_memory.extends.bind fun _ => (still_ofExcept _).extends.bind fun m =>
    (record_extends _).bind fun _ => setMemory_extends m

theorem surrender_extends (queue xs : List ObjectId) :
    (surrender queue xs).Extends (surrender queue xs) := by
  induction xs generalizing queue with
  | nil => exact (still_pure queue).extends
  | cons y xs ih =>
    unfold surrender
    refine still_heap.extends.bind fun h => ?_
    split
    · exact ih queue
    · exact .ite (ih queue) ((editWith_extends _).bind fun _ =>
        .ite ((edit_extends _).bind fun _ => ih _) (ih queue))

theorem drain_extends (rounds : Nat) (queue : List ObjectId) :
    (drain rounds queue).Extends (drain rounds queue) := by
  induction rounds generalizing queue with
  | zero => exact still_heap.extends.bind fun _ => (setHeap_extends _).answer _
  | succ rounds ih =>
    unfold drain
    refine still_heap.extends.bind fun h => (setHeap_extends _).bind fun _ => ?_
    split
    · exact (still_pure _).extends
    · split
      · exact (still_pure _).extends
      · exact .ite (still_pure _).extends ((setHeap_extends _).bind fun _ =>
          (surrender_extends _ _).bind fun queue => (destroy_extends _).bind fun _ => ih queue)

/-- More rounds make no difference to a cascade that does not run out of them. -/
theorem cascade_extends (F : fin.Extends fin') {rounds rounds' : Nat} (le : rounds ≤ rounds')
    (queue : List ObjectId) : (cascade fin rounds queue).Extends (cascade fin' rounds' queue) := by
  induction rounds generalizing rounds' queue with
  | zero => exact starve_extends _
  | succ rounds ih =>
    obtain ⟨rounds', rfl⟩ := Nat.exists_eq_add_of_lt le
    unfold cascade
    refine still_heap.extends.bind fun h => (drain_extends _ _).bind fun met => ?_
    cases met with
    | none => exact (still_pure ()).extends
    | some met =>
      exact (finalizeBeforeFree_extends F _).bind fun free =>
        .ite (ih (Nat.le_of_succ_le_succ le) _) (ih (Nat.le_of_succ_le_succ le) _)

theorem dropReference_extends (F : fin.Extends fin') (x : ObjectId) :
    (dropReference fin x).Extends (dropReference fin' x) :=
  (editWith_extends _).bind fun _ => .ite (still_pure ()).extends
    ((edit_extends _).bind fun _ => cascade_extends F (Nat.succ_le_succ F.limit) _)

end Release

/-! ## Passes -/

namespace Cycles

variable {fin fin' : Finalization}

theorem divide_extends (xs : List ObjectId) : (divide xs).Extends (divide xs) := by
  refine still_heap.extends.bind fun h => (setHeap_extends _).bind fun _ => ?_
  split
  · exact (still_throw _).extends
  · exact (setHeap_extends _).answer _

theorem finalizeAll_extends (F : fin.Extends fin') (xs : List ObjectId) :
    (finalizeAll fin xs).Extends (finalizeAll fin' xs) := by
  induction xs with
  | nil => exact (still_pure false).extends
  | cons x xs ih =>
    exact still_heap.extends.bind fun h =>
      .ite ((Release.runFinalizer_extends F x).bind fun _ => ih.answer _) ih

theorem report_extends (verdict : String) (xs : List ObjectId) :
    (report verdict xs).Extends (report verdict xs) := by
  refine Extends.forM (fun x => still_heap.extends.bind fun h => ?_) xs
  split
  · exact post_extends _
  · exact (still_pure ()).extends

theorem sweep_extends (F : fin.Extends fin') (options : PassOptions) (garbage : List ObjectId) :
    (sweep fin options garbage).Extends (sweep fin' options garbage) := by
  refine .ite (Extends.forM (fun x => edit_extends _) garbage) ?_
  refine still_heap.extends.bind fun h => (setHeap_extends _).bind fun _ => ?_
  exact (Extends.forM (fun x => .ite
    ((report_extends _ _).bind fun _ => Release.destroy_extends x) (Release.destroy_extends x))
    garbage).bind fun _ => Extends.forM (Release.dropReference_extends F) _

theorem reclaim_extends (recheck : Bool → Bool) (F : fin.Extends fin') (options : PassOptions)
    (xs : List ObjectId) :
    (reclaimWith recheck fin options xs).Extends (reclaimWith recheck fin' options xs) := by
  refine (finalizeAll_extends F xs).bind fun ran => still_heap.extends.bind fun h => ?_
  have swept (resurrected garbage : List ObjectId) :=
    (sweep_extends F options garbage).answer fun _ => (xs.filter (!h.contains ·) ++ garbage,
      resurrected, if options.saveGarbage then garbage else [])
  have rest (found : List ObjectId × List ObjectId) :=
    Extends.ite (p := options.logUncollectable = true)
      ((report_extends "uncollectable" found.1).bind fun _ => swept found.1 found.2)
      (swept found.1 found.2)
  exact .ite ((divide_extends _).bind rest) ((still_pure _).extends.bind rest)

theorem collect_extends (F : fin.Extends fin') (g : Int) (xs : List ObjectId)
    (options : PassOptions) :
    (collect fin g xs options).Extends (collect fin' g xs options) := by
  refine still_heap.extends.bind fun h => (divide_extends _).bind fun parts => ?_
  exact .ite ((still_pure _).extends.bind fun found => still_heap.extends.answer _)
    ((reclaim_extends id F options _).bind fun found => still_heap.extends.answer _)

end Cycles

/-- The second hooks of a pass do what the first ones do, unless these give up. -/
structure PassHooks.Extends (hooks hooks' : PassHooks) : Prop where
  finalization : hooks.finalization.Extends hooks'.finalization
  callback : ∀ script, (hooks.callback script).Extends (hooks'.callback script)

namespace Pass

variable {hooks hooks' : PassHooks}

theorem tellAll_extends (H : hooks.Extends hooks') (phase : Phase) (info : PassInfo) :
    (tellAll hooks phase info).Extends (tellAll hooks' phase info) := by
  refine still_collector.extends.bind fun c => Extends.forM (fun cb => ?_) c.callbacks
  refine (record_extends _).bind fun _ => .ite ?_ (still_pure ()).extends
  refine (H.callback cb.script).attempt.bind fun outcome => ?_
  cases outcome with
  | ok _ => exact (still_pure ()).extends
  | error fault => exact post_extends _

theorem reportStats_extends (text : Collector → String) :
    (reportStats text).Extends (reportStats text) :=
  still_collector.extends.bind fun _ => .ite (post_extends _) (still_pure ()).extends

theorem book_extends (g : Generation) (options : PassOptions) (r : CycleReport) :
    (book g options r).Extends (book g options r) :=
  still_collector.extends.bind fun _ => still_heap.extends.bind fun _ =>
    (setHeap_extends _).bind fun _ => (modifyCollector_extends _).answer _

theorem opening_extends (H : hooks.Extends hooks') (g : Generation) :
    (opening hooks g).Extends (opening hooks' g) :=
  (tellAll_extends H _ _).bind fun _ => (reportStats_extends _).bind fun _ =>
    still_collector.extends

theorem closing_extends (H : hooks.Extends hooks') (g : Generation) (options : PassOptions)
    (r : CycleReport) : (closing hooks g options r).Extends (closing hooks' g options r) :=
  (book_extends _ _ _).bind fun _ => (Extends.forM (fun _ => post_extends _) _).bind fun _ =>
    (reportStats_extends _).bind fun _ => (tellAll_extends H _ _).answer _

theorem body_extends (H : hooks.Extends hooks') (g : Generation) :
    (body hooks g).Extends (body hooks' g) :=
  (opening_extends H g).bind fun _ =>
    (Cycles.collect_extends H.finalization _ _ _).bind fun r => closing_extends H g _ r

theorem run_extends (H : hooks.Extends hooks') (g : Generation) :
    (run hooks g).Extends (run hooks' g) :=
  (modifyCollector_extends _).bind fun _ => (body_extends H g).attempt.bind fun _ =>
    (modifyCollector_extends _).bind fun _ => (still_ofExcept _).extends

theorem runDue_extends (H : hooks.Extends hooks') (rounds : Nat) (g : Generation) :
    (runDue (run hooks) rounds g).Extends (runDue (run hooks') rounds g) := by
  induction rounds generalizing g with
  | zero => exact (still_pure ()).extends
  | succ rounds ih =>
    refine (run_extends H g).bind fun outcome => ?_
    cases outcome.due with
    | none => exact (still_pure ()).extends
    | some older => exact ih older

end Pass

/-! ## Operations -/

/-- The second hooks do what the first ones do, unless these give up. -/
structure Hooks.Extends (hooks hooks' : Hooks) : Prop where
  finalization : hooks.finalization.Extends hooks'.finalization
  pass : ∀ pass, hooks.pass? = some pass → ∃ pass', hooks'.pass? = some pass' ∧ pass.Extends pass'

namespace Host

variable {hooks hooks' : Hooks}

theorem afterAllocation_extends (H : hooks.Extends hooks') (m : Memory) :
    (afterAllocation hooks m).Extends (afterAllocation hooks' m) := by
  refine .ite ?_ (still_pure _).extends
  cases hp : hooks.pass? with
  | none => exact starve_extends _
  | some pass =>
    obtain ⟨pass', hp', passes⟩ := H.pass pass hp
    rw [hp']
    exact Pass.runDue_extends passes 3 .youngest

theorem allocate_extends (H : hooks.Extends hooks') (kind : Kind) (typeName : String) :
    (allocate hooks kind typeName).Extends (allocate hooks' kind typeName) :=
  still_memory.extends.bind fun _ => (setMemory_extends _).bind fun _ =>
    (afterAllocation_extends H _).answer _

theorem release_extends (H : hooks.Extends hooks') (x : ObjectId) :
    (release hooks x).Extends (release hooks' x) :=
  (edit_extends _).bind fun _ => Release.dropReference_extends H.finalization x

theorem allocateMany_extends (H : hooks.Extends hooks') (kind : Kind) (last : ObjectId)
    (count : Nat) : (allocateMany hooks kind last count).Extends
      (allocateMany hooks' kind last count) := by
  induction count generalizing last with
  | zero => exact (still_pure last).extends
  | succ count ih => exact (allocate_extends H kind _).bind ih

theorem extendChain_extends (H : hooks.Extends hooks') (last : ObjectId) (count : Nat) :
    (extendChain hooks last count).Extends (extendChain hooks' last count) := by
  induction count generalizing last with
  | zero => exact (still_pure last).extends
  | succ count ih =>
    exact (allocate_extends H _ _).bind fun next =>
      ((edit_extends _).bind fun _ => release_extends H next).bind fun _ => ih next

theorem chain_extends (H : hooks.Extends hooks') (length : Nat) (close : Bool) :
    (chain hooks length close).Extends (chain hooks' length close) :=
  (allocate_extends H _ _).bind fun head => (extendChain_extends H head _).bind fun _ =>
    .ite ((edit_extends _).answer _) (still_pure head).extends

theorem collect_extends (H : hooks.Extends hooks') (i : Int) :
    (collect hooks i).Extends (collect hooks' i) := by
  refine still_collector.extends.bind fun c => .ite (still_throw _).extends ?_
  cases hi : Generation.ofInt? i with
  | none => exact (still_throw _).extends
  | some g =>
    cases hp : hooks.pass? with
    | none => exact starve_answer_extends _ _
    | some pass =>
      obtain ⟨pass', hp', passes⟩ := H.pass pass hp
      rw [hp']
      exact (Pass.run_extends passes g).bind fun outcome => still_collector.extends.bind fun _ =>
        .ite (still_throw _).extends (still_pure _).extends

theorem clearGarbage_extends (H : hooks.Extends hooks') :
    (clearGarbage hooks).Extends (clearGarbage hooks') :=
  still_collector.extends.bind fun c => (modifyCollector_extends _).bind fun _ =>
    (Extends.forM (release_extends H) c.garbage).answer _

theorem configure_extends (f : Collector → Except Fault Collector) :
    (configure f).Extends (configure f) :=
  still_collector.extends.bind fun _ => (still_ofExcept _).extends.bind fun _ =>
    modifyCollector_extends _

theorem addCallback_extends (phase : CallbackPhase) (script : Script) :
    (addCallback phase script).Extends (addCallback phase script) := by
  have still_get : Still (get : Act Machine) := fun _ => rfl
  exact still_get.extends.bind fun _ => (configure_extends _).bind fun _ =>
    (modify_extends (by intro; rfl)).answer _

theorem snapshotAt_still (slot : Nat) : Still (snapshotAt slot) := fun _ => rfl

theorem advance_extends {α : Type} (slot : Nat) (take : Snapshot → Heap → α × Snapshot) :
    (advance slot take).Extends (advance slot take) :=
  (snapshotAt_still slot).extends.bind fun _ => still_heap.extends.bind fun _ =>
    (modify_extends (by intro; rfl)).answer _

theorem call_extends (H : hooks.Extends hooks') (self : ObjectId) (c : Call) :
    (call hooks self c).Extends (call hooks' self c) := by
  cases c with
  | allocate kind typeName => exact (allocate_extends H kind typeName).answer _
  | allocateMany kind count => exact (allocateMany_extends H kind 0 count).answer _
  | chain length close => exact (chain_extends H length close).answer _
  | retain _ | addEdge _ _ | clearFinalizer _ => exact (edit_extends _).answer _
  | release id => exact (release_extends H _).answer _
  | removeEdge source target =>
    exact Extends.answer ((edit_extends _).bind fun _ =>
      Release.dropReference_extends H.finalization _) _
  | collect generation => exact (collect_extends H generation).answer _
  | enable | disable | setDebug _ | setPolicy _ | setThresholds _ | clearCallbacks =>
    exact (configure_extends _).answer _
  | clearGarbage => exact (clearGarbage_extends H).answer _
  | snapshot slot =>
    exact Extends.answer (still_collector.extends.bind fun _ =>
      (modify_extends (by intro; rfl)).answer _) _
  | snapshotNext slot | snapshotRemaining slot => exact (advance_extends slot _).answer _
  | snapshotSize slot => exact (snapshotAt_still slot).extends.answer _
  | throw message => exact (still_throw _).extends
  | announce name => exact Extends.answer ((record_extends _).bind fun _ => print_extends _) _

theorem raw_extends (H : hooks.Extends hooks') (self : ObjectId) (r : RawCall) :
    (raw hooks self r).Extends (raw hooks' self r) := by
  have F := H.finalization
  cases r with
  | incRef _ | appendReference _ _ | setFreeing _ _ => exact (edit_extends _).answer _
  | decRef _ | removeReference _ _ => exact (editWith_extends _).answer _
  | dropReference id => exact (Release.dropReference_extends F _).answer _
  | destroy id => exact (Release.destroy_extends _).answer _
  | runFinalizer id =>
    exact still_heap.extends.bind fun _ => (still_ofExcept _).extends.bind fun _ =>
      (Release.runFinalizer_extends F _).answer _
  | collectCycles generation candidates options =>
    exact (Cycles.collect_extends F _ _ _).answer _
  | attach settings =>
    exact Extends.answer (still_memory.extends.bind fun _ => (setMemory_extends _).bind fun _ =>
      (still_ofExcept _).extends.bind fun _ => still_memory.extends.bind fun _ =>
        setMemory_extends _) _
  | detach =>
    exact Extends.answer (still_memory.extends.bind fun _ => setMemory_extends _) _

theorem perform_extends (H : hooks.Extends hooks') (self : ObjectId) (op : Op) :
    (perform hooks self op).Extends (perform hooks' self op) := by
  cases op with
  | call c => exact call_extends H self c
  | ask q => exact (still_ask self q).extends
  | raw r => exact raw_extends H self r
  | setFinalizer id script => exact (edit_extends _).answer _
  | addCallback phase script => exact (addCallback_extends phase script).answer _

theorem runScript_extends (H : hooks.Extends hooks') (self : ObjectId) (script : Script) :
    (runScript hooks self script).Extends (runScript hooks' self script) := by
  induction script with
  | nil => exact (still_pure ()).extends
  | cons step rest ih =>
    refine still_memory.extends.bind fun m => (perform_extends H self step.op).attempt.bind
      fun outcome => (record_extends _).bind fun _ => ?_
    cases outcome with
    | ok a => exact ih
    | error e => exact .ite ih (still_throw e).extends

end Host

namespace Hooks

/-- Hooks with a larger budget do what those with a smaller one do, unless these give up. -/
theorem inPass_extends (le : n ≤ m) : (inPass n).Extends (inPass m) := by
  induction n generalizing m with
  | zero => exact ⟨⟨Nat.zero_le _, fun _ _ => starve_extends _⟩, fun _ e => by cases e⟩
  | succ n ih =>
    obtain ⟨k, rfl⟩ := Nat.exists_eq_add_of_lt le
    have inner := ih (Nat.le_of_lt_succ le)
    exact ⟨⟨le, Host.runScript_extends inner⟩, fun _ e => by cases e⟩

theorem ofPass_extends (le : n ≤ m) : (ofPass n).Extends (ofPass m) where
  finalization := (inPass_extends le).finalization
  callback := Host.runScript_extends (inPass_extends le) 0

theorem outside_extends (le : n ≤ m) : (outside n).Extends (outside m) := by
  have pass (n m : Nat) (le : n ≤ m) (pass : PassHooks) (e : (outside n).pass? = some pass) :
      ∃ pass', (outside m).pass? = some pass' ∧ pass.Extends pass' := by
    obtain rfl := eq_ofPass e
    exact ⟨_, outside_pass m, ofPass_extends le⟩
  induction n generalizing m with
  | zero => exact ⟨⟨Nat.zero_le _, fun _ _ => starve_extends _⟩, pass 0 m le⟩
  | succ n ih =>
    have passes := pass (n + 1) m le
    obtain ⟨k, rfl⟩ := Nat.exists_eq_add_of_lt le
    exact ⟨⟨le, Host.runScript_extends (ih (Nat.le_of_lt_succ le))⟩, passes⟩

end Hooks

end Reclaim
