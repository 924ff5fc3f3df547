import Reclaim.Proofs.Nesting

/-!
# Passes are impartial

The resurrection policy is looked at when a pass is over and the one who asked for it is told about
it, and when the host asks for it. No other pass starts while one is running, and no hook goes by
what it is answered. So the policy makes no difference to what a pass does with its hooks: on
machines that differ in their policy alone it has the same outcome, and it leaves machines that
differ in their policy alone (`Pass.run_impartial`).

`Act.Twins` says of two actions that they agree whatever the policy is, and `Act.Impartial` says it
of one action. It is kept by sequencing, and no action inside of a pass does anything with the
policy but write another one.
-/

set_option autoImplicit false

namespace Reclaim

variable {α β γ δ : Type} {n : Nat} {x y : ObjectId}

/-- The collector with another policy. -/
def Collector.withPolicy (c : Collector) (policy : ResurrectionPolicy) : Collector :=
  { c with policy }

/-- The memory with another policy. -/
def Memory.withPolicy (m : Memory) (policy : ResurrectionPolicy) : Memory :=
  { m with collector := m.collector.map (·.withPolicy policy) }

/-- The machine with another policy and another journal. As memory is noted in the journal, machines
with different policies have different journals. -/
def Machine.recast (s : Machine) (policy : ResurrectionPolicy) (journal : List Moment) : Machine :=
  { s with memory := s.memory.withPolicy policy, journal }

namespace Act

/-- The results of an action on machines that differ in their policies. -/
inductive Agree (R : α → β → Prop) :
    EStateM.Result Fault Machine α → EStateM.Result Fault Machine β → Prop where
  | ok {a b s} (policy journal) : R a b → Agree R (.ok a s) (.ok b (s.recast policy journal))
  | error {e s} (policy journal) : Agree R (.error e s) (.error e (s.recast policy journal))

/-- On machines that differ in their policies two actions agree, and what they answer is related. -/
def Twins (R : α → β → Prop) (act : Act α) (act' : Act β) : Prop :=
  ∀ s policy journal, Agree R (act s) (act' (s.recast policy journal))

/-- The policy makes no difference to the action. -/
def Impartial (act : Act α) : Prop := Twins Eq act act

/-- The policy makes no difference to the action but for what it answers. -/
def Evasive (act : Act α) : Prop := Twins (fun _ _ => True) act act

variable {R : α → β → Prop} {R' : γ → δ → Prop} {act : Act α} {act' : Act β} {f : α → Act γ}
  {f' : β → Act δ}

theorem Twins.bind (first : Twins R act act') (next : ∀ a b, R a b → Twins R' (f a) (f' b)) :
    Twins R' (act >>= f) (act' >>= f') := by
  intro s policy journal
  have agree := first s policy journal
  rw [bind_apply, bind_apply]
  generalize act s = r, act' (s.recast policy journal) = r' at agree ⊢
  cases agree with
  | ok policy journal related => exact next _ _ related _ policy journal
  | error policy journal => exact .error policy journal

theorem Impartial.bind {f' : α → Act δ} (first : Impartial act)
    (next : ∀ a, Twins R' (f a) (f' a)) : Twins R' (act >>= f) (act >>= f') :=
  Twins.bind first fun a _ same => same ▸ next a

theorem Impartial.evasive (impartial : Impartial act) : Evasive act := by
  intro s policy journal
  have agree := impartial s policy journal
  generalize act s = r, act (s.recast policy journal) = r' at agree ⊢
  cases agree with
  | ok policy journal _ => exact .ok policy journal trivial
  | error policy journal => exact .error policy journal

theorem impartial_pure (a : α) : Impartial (pure a) := fun _ _ _ => .ok _ _ rfl

theorem impartial_throw (e : Fault) : Impartial (throw e : Act α) := fun _ _ _ => .error _ _

theorem Impartial.answer (impartial : Impartial act) (g : α → γ) :
    Impartial (act >>= fun a => pure (g a)) := impartial.bind fun a => impartial_pure (g a)

theorem Impartial.forM {g : α → Act Unit} (impartial : ∀ a, Impartial (g a)) (xs : List α) :
    Impartial (xs.forM g) := by
  induction xs with
  | nil => exact impartial_pure ()
  | cons a xs ih => exact (impartial a).bind fun _ => ih

/-- What an action leaves is put into a value, of whichever kind its outcome is. -/
theorem Twins.attempt (twins : Twins R act act') {f : Except Fault α → Act γ}
    {f' : Except Fault β → Act δ} (ok : ∀ a b, R a b → Twins R' (f (.ok a)) (f' (.ok b)))
    (error : ∀ e, Twins R' (f (.error e)) (f' (.error e))) :
    Twins R' (Act.attempt act >>= f) (Act.attempt act' >>= f') := by
  intro s policy journal
  have agree := twins s policy journal
  rw [bind_apply, bind_apply, attempt_apply, attempt_apply]
  generalize act s = r, act' (s.recast policy journal) = r' at agree ⊢
  cases agree with
  | ok policy journal related => exact ok _ _ related _ policy journal
  | error policy journal => exact error _ _ policy journal

theorem Twins.ite {p : Prop} [Decidable p] {other : Act α} {other' : Act β}
    (yes : Twins R act act') (no : Twins R other other') :
    Twins R (if p then act else other) (if p then act' else other') := by
  split
  · exact yes
  · exact no

/-! ### Primitive actions -/

theorem impartial_heap : Impartial heap := fun _ _ _ => .ok _ _ rfl

theorem impartial_setHeap (h : Heap) : Impartial (setHeap h) := fun _ _ _ => .ok _ _ rfl

theorem impartial_ofExcept (r : Except Fault α) : Impartial (ofExcept r) := by
  cases r with
  | ok a => exact impartial_pure a
  | error e => exact impartial_throw e

theorem twins_ofExcept_map (r : Except Fault α) (g : α → β) :
    Twins (fun a b => b = g a) (ofExcept r) (ofExcept (r.map g)) := by
  intro s policy journal
  cases r with
  | ok a => exact .ok policy journal rfl
  | error e => exact .error policy journal

theorem impartial_edit (f : Heap → Except Fault Heap) : Impartial (edit f) :=
  impartial_heap.bind fun h => (impartial_ofExcept (f h)).bind fun h => impartial_setHeap h

theorem impartial_editWith (f : Heap → Except Fault (α × Heap)) : Impartial (editWith f) :=
  impartial_heap.bind fun h => (impartial_ofExcept (f h)).bind fun (a, h) =>
    (impartial_setHeap h).bind fun _ => impartial_pure a

theorem impartial_post (notice : Notice) : Impartial (Act.post notice) := fun _ _ _ => .ok _ _ rfl

theorem impartial_print (text : String) : Impartial (Act.print text) := fun _ _ _ => .ok _ _ rfl

theorem impartial_starve : Impartial starve := fun _ _ _ => .ok _ _ rfl

/-- Journals may differ. -/
theorem twins_record (event event' : Event) : Twins Eq (record event) (record event') :=
  fun s policy journal => .ok policy (⟨event', s.memory.withPolicy policy⟩ :: journal) rfl

theorem twins_memory : Twins (fun m m' => ∃ policy, m' = m.withPolicy policy) memory memory :=
  fun _ policy journal => .ok policy journal ⟨policy, rfl⟩

theorem twins_setMemory (m : Memory) (policy : ResurrectionPolicy) :
    Twins Eq (setMemory m) (setMemory (m.withPolicy policy)) :=
  fun _ _ journal => .ok policy journal rfl

theorem twins_collector :
    Twins (fun c c' => ∃ policy, c' = c.withPolicy policy) collector collector := by
  intro s policy journal
  cases hc : s.memory.collector with
  | none =>
    rw [collector_of_none hc, collector_of_none (congrArg (Option.map _) hc)]
    exact .error policy journal
  | some c =>
    rw [collector_of_some hc, collector_of_some (congrArg (Option.map _) hc)]
    exact .ok policy journal ⟨policy, rfl⟩

/-- A change of the collector that does not go by its policy. -/
theorem twins_modifyCollector {f f' : Collector → Collector}
    (blind : ∀ c policy, ∃ policy', f' (c.withPolicy policy) = (f c).withPolicy policy') :
    Twins Eq (modifyCollector f) (modifyCollector f') := by
  intro s policy journal
  obtain ⟨policy', same⟩ : ∃ policy', ({ s.memory.withPolicy policy with
      collector := (s.memory.withPolicy policy).collector.map f' } : Memory) =
      ({ s.memory with collector := s.memory.collector.map f } : Memory).withPolicy policy' := by
    unfold Memory.withPolicy
    cases s.memory.collector with
    | none => exact ⟨policy, rfl⟩
    | some c =>
      obtain ⟨policy', same⟩ := blind c policy
      refine ⟨policy', ?_⟩
      simp only [Option.map_some, same]
  rw [modifyCollector_apply, modifyCollector_apply]
  have : (s.recast policy journal).mapCollector f' = (s.mapCollector f).recast policy' journal :=
    congrArg (fun m => ({ s with memory := m, journal } : Machine)) same
  rw [this]
  exact .ok policy' journal rfl

theorem twins_get :
    Twins (fun s s' => ∃ policy journal, s' = s.recast policy journal) (get : Act Machine) get :=
  fun _ policy journal => .ok policy journal ⟨policy, journal, rfl⟩

/-- An action goes on from the memory, but not by its policy. -/
theorem Twins.of_memory {f : Memory → Act γ} {f' : Memory → Act δ}
    (next : ∀ m policy, Twins R' (f m) (f' (m.withPolicy policy))) :
    Twins R' (memory >>= f) (memory >>= f') :=
  twins_memory.bind fun m _ ⟨policy, same⟩ => same ▸ next m policy

/-- An action goes on from the collector, but not by its policy. -/
theorem Twins.of_collector {f : Collector → Act γ} {f' : Collector → Act δ}
    (next : ∀ c policy, Twins R' (f c) (f' (c.withPolicy policy))) :
    Twins R' (collector >>= f) (collector >>= f') :=
  twins_collector.bind fun c _ ⟨policy, same⟩ => same ▸ next c policy

end Act

open Act

/-! ## Releasing references -/

/-- The policy makes no difference to finalizers. -/
def Finalization.Impartial (fin : Finalization) : Prop := ∀ id script, (fin.run id script).Impartial

namespace Release

variable {fin : Finalization}

theorem runFinalizer_impartial (F : fin.Impartial) (x : ObjectId) :
    Impartial (runFinalizer fin x) := by
  refine impartial_heap.bind fun h => ?_
  cases (h.get? x).bind (·.pendingFinalizer?) with
  | none => exact impartial_pure ()
  | some script =>
    refine impartial_heap.bind fun h => (impartial_setHeap _).bind fun _ =>
      (twins_record _ _).bind fun _ _ _ => (F x script).attempt (fun _ _ _ => ?_) fun fault => ?_
    · exact impartial_pure ()
    · exact impartial_post _

theorem afterFinalizer_impartial (x : ObjectId) : Impartial (afterFinalizer x) := by
  refine (impartial_editWith _).bind fun count => ?_
  split
  · exact (impartial_post _).bind fun _ => impartial_pure _
  · exact (impartial_edit _).bind fun _ => impartial_pure _

theorem finalizeBeforeFree_impartial (F : fin.Impartial) (x : ObjectId) :
    Impartial (finalizeBeforeFree fin x) :=
  impartial_heap.bind fun _ => (impartial_setHeap _).bind fun _ =>
    (runFinalizer_impartial F x).bind fun _ => afterFinalizer_impartial x

theorem destroy_impartial (x : ObjectId) : Impartial (destroy x) := by
  refine .of_memory fun m policy => ?_
  have same : (m.withPolicy policy).destroy x = (m.destroy x).map (·.withPolicy policy) := by
    unfold Memory.destroy Memory.withPolicy
    cases m.heap.get? x with
    | none => rfl
    | some o => simp only [Except.map, Option.map_map]; rfl
  rw [same]
  exact (twins_ofExcept_map _ _).bind fun m' _ same => same ▸
    (twins_record _ _).bind fun _ _ _ => twins_setMemory m' policy

theorem surrender_impartial (queue xs : List ObjectId) : Impartial (surrender queue xs) := by
  induction xs generalizing queue with
  | nil => exact impartial_pure queue
  | cons y xs ih =>
    unfold surrender
    refine impartial_heap.bind fun h => ?_
    split
    · exact ih queue
    · split
      · exact ih queue
      · refine (impartial_editWith _).bind fun count => ?_
        split
        · exact (impartial_edit _).bind fun _ => ih _
        · exact ih queue

theorem drain_impartial (rounds : Nat) (queue : List ObjectId) :
    Impartial (drain rounds queue) := by
  induction rounds generalizing queue with
  | zero => exact impartial_heap.bind fun h => (impartial_setHeap _).bind fun _ => impartial_pure _
  | succ rounds ih =>
    unfold drain
    refine impartial_heap.bind fun h => (impartial_setHeap _).bind fun _ => ?_
    split
    · exact impartial_pure _
    · split
      · exact impartial_pure _
      · split
        · exact impartial_pure _
        · exact (impartial_setHeap _).bind fun _ => (surrender_impartial _ _).bind fun queue =>
            (destroy_impartial _).bind fun _ => ih queue

theorem cascade_impartial (F : fin.Impartial) (rounds : Nat) (queue : List ObjectId) :
    Impartial (cascade fin rounds queue) := by
  induction rounds generalizing queue with
  | zero => exact impartial_starve
  | succ rounds ih =>
    unfold cascade
    refine impartial_heap.bind fun h => (drain_impartial _ _).bind fun met => ?_
    split
    · exact impartial_pure ()
    · refine (finalizeBeforeFree_impartial F _).bind fun free => ?_
      split
      · exact ih _
      · exact ih _

theorem dropReference_impartial (F : fin.Impartial) (x : ObjectId) :
    Impartial (dropReference fin x) := by
  refine (impartial_editWith _).bind fun count => ?_
  split
  · exact impartial_pure ()
  · exact (impartial_edit _).bind fun _ => cascade_impartial F _ _

end Release

/-! ## Passes -/

namespace Cycles

variable {fin : Finalization}

theorem divide_impartial (xs : List ObjectId) : Impartial (divide xs) := by
  refine impartial_heap.bind fun h => (impartial_setHeap _).bind fun _ => ?_
  split
  · exact impartial_throw _
  · exact (impartial_setHeap _).bind fun _ => impartial_pure _

theorem finalizeAll_impartial (F : fin.Impartial) (xs : List ObjectId) :
    Impartial (finalizeAll fin xs) := by
  induction xs with
  | nil => exact impartial_pure false
  | cons x xs ih =>
    unfold finalizeAll
    refine impartial_heap.bind fun h => ?_
    split
    · exact (Release.runFinalizer_impartial F x).bind fun _ => ih.bind fun _ => impartial_pure true
    · exact ih

theorem report_impartial (verdict : String) (xs : List ObjectId) :
    Impartial (report verdict xs) := by
  refine Impartial.forM (fun x => impartial_heap.bind fun h => ?_) xs
  split
  · exact impartial_post _
  · exact impartial_pure ()

theorem sweep_impartial (F : fin.Impartial) (options : PassOptions) (garbage : List ObjectId) :
    Impartial (sweep fin options garbage) := by
  unfold sweep
  split
  · exact Impartial.forM (fun x => impartial_edit _) garbage
  · refine impartial_heap.bind fun h => (impartial_setHeap _).bind fun _ => ?_
    refine Impartial.bind (Impartial.forM (fun x => ?_) garbage) fun _ =>
      Impartial.forM (Release.dropReference_impartial F) _
    split
    · exact (report_impartial _ _).bind fun _ => Release.destroy_impartial x
    · exact Release.destroy_impartial x

theorem reclaim_impartial (recheck : Bool → Bool) (F : fin.Impartial) (options : PassOptions)
    (xs : List ObjectId) : Impartial (reclaimWith recheck fin options xs) := by
  refine (finalizeAll_impartial F xs).bind fun ran => impartial_heap.bind fun h => ?_
  have swept (resurrected garbage : List ObjectId) :
      Impartial (sweep fin options garbage >>= fun _ => pure (xs.filter (!h.contains ·) ++ garbage,
        resurrected, if options.saveGarbage then garbage else [])) :=
    (sweep_impartial F options garbage).answer _
  have rest (resurrected garbage : List ObjectId) :=
    Twins.ite (p := options.logUncollectable = true)
      ((report_impartial "uncollectable" resurrected).bind fun _ => swept resurrected garbage)
      (swept resurrected garbage)
  exact .ite ((divide_impartial _).bind fun found => rest found.1 found.2)
    ((impartial_pure _).bind fun found => rest found.1 found.2)

theorem collect_impartial (F : fin.Impartial) (g : Int) (xs : List ObjectId)
    (options : PassOptions) : Impartial (collect fin g xs options) := by
  refine impartial_heap.bind fun h => (divide_impartial _).bind fun (reachable, unreachable) => ?_
  refine .ite ((impartial_pure _).bind fun found => ?_)
    ((reclaim_impartial id F options _).bind fun found => ?_)
  all_goals exact impartial_heap.bind fun h => impartial_pure _

end Cycles

/-- The policy makes no difference to the hooks of a pass. -/
structure PassHooks.Impartial (hooks : PassHooks) : Prop where
  finalization : hooks.finalization.Impartial
  callback : ∀ script, (hooks.callback script).Impartial

namespace Pass

variable {hooks : PassHooks}

theorem tellAll_impartial (H : hooks.Impartial) (phase : Phase) (info : PassInfo) :
    Impartial (tellAll hooks phase info) := by
  refine .of_collector fun c _ => Impartial.forM (fun cb => ?_) c.callbacks
  refine (twins_record _ _).bind fun _ _ _ => ?_
  split
  · refine Twins.attempt (H.callback cb.script) (fun _ _ _ => ?_) fun fault => ?_
    · exact impartial_pure ()
    · exact impartial_post _
  · exact impartial_pure ()

theorem reportStats_impartial {text : Collector → String}
    (blind : ∀ c policy, text (c.withPolicy policy) = text c) : Impartial (reportStats text) := by
  refine .of_collector fun c policy => ?_
  rw [blind]
  exact .ite (impartial_post _) (impartial_pure ())

theorem book_impartial (g : Generation) (options : PassOptions) (r : CycleReport) :
    Impartial (book g options r) := by
  refine .of_collector fun c _ => impartial_heap.bind fun h => (impartial_setHeap _).bind fun _ =>
    Twins.bind (twins_modifyCollector fun c' policy => ⟨policy, ?_⟩) fun _ _ _ => impartial_pure _
  cases options.saveGarbage <;> rfl

theorem closing_impartial (H : hooks.Impartial) (g : Generation) (options : PassOptions)
    (r : CycleReport) : Impartial (closing hooks g options r) := by
  refine (book_impartial _ _ _).bind fun due => ?_
  refine Impartial.bind (Impartial.forM (fun _ => impartial_post _) _) fun _ =>
    (reportStats_impartial fun c _ => rfl).bind fun _ => (tellAll_impartial H _ _).bind fun _ => ?_
  exact impartial_pure _

theorem body_impartial (H : hooks.Impartial) (g : Generation) : Impartial (body hooks g) := by
  simp only [body, opening, bind_assoc]
  refine (tellAll_impartial H _ _).bind fun _ =>
    (reportStats_impartial fun c _ => rfl).bind fun _ => .of_collector fun c _ => ?_
  exact (Cycles.collect_impartial H.finalization _ _ _).bind fun r => closing_impartial H g _ r

/-- The policy makes no difference to a pass. -/
theorem run_impartial (H : hooks.Impartial) (g : Generation) : Impartial (run hooks g) := by
  have mark (value : Bool) :
      Impartial (Act.modifyCollector ({ · with collecting := value })) :=
    twins_modifyCollector fun c policy => ⟨policy, rfl⟩
  exact (mark true).bind fun _ => Twins.attempt (body_impartial H g)
    (fun outcome _ same => same ▸ (mark false).bind fun _ => impartial_pure outcome)
    fun e => (mark false).bind fun _ => impartial_throw e

end Pass

/-! ## Operations inside of passes -/

/-- The hooks inside of a pass, to which the policy makes no difference. -/
structure Hooks.Impartial (hooks : Hooks) : Prop where
  finalization : hooks.finalization.Impartial
  pass : hooks.pass? = none

namespace Host

variable {hooks : Hooks}

theorem allocate_impartial (H : hooks.Impartial) (kind : Kind) (typeName : String) :
    Impartial (allocate hooks kind typeName) := by
  refine .of_memory fun m policy => ?_
  have same : (m.withPolicy policy).allocate kind typeName =
      ((m.allocate kind typeName).1, (m.allocate kind typeName).2.withPolicy policy) := by
    unfold Memory.allocate Memory.withPolicy
    cases m.collector <;> rfl
  have wants (m : Memory) : (m.withPolicy policy).wantsPass = m.wantsPass := by
    unfold Memory.wantsPass Memory.withPolicy
    cases m.collector <;> rfl
  rw [same]
  refine (twins_setMemory _ policy).bind fun _ _ _ => ?_
  simp only [afterAllocation, wants, H.pass]
  exact (Twins.ite impartial_starve (impartial_pure _)).bind fun _ _ _ => impartial_pure _

theorem release_impartial (H : hooks.Impartial) (x : ObjectId) : Impartial (release hooks x) :=
  (impartial_edit _).bind fun _ => Release.dropReference_impartial H.finalization x

theorem allocateMany_impartial (H : hooks.Impartial) (kind : Kind) (last : ObjectId) (count : Nat) :
    Impartial (allocateMany hooks kind last count) := by
  induction count generalizing last with
  | zero => exact impartial_pure last
  | succ count ih => exact (allocate_impartial H kind _).bind ih

theorem extendChain_impartial (H : hooks.Impartial) (last : ObjectId) (count : Nat) :
    Impartial (extendChain hooks last count) := by
  induction count generalizing last with
  | zero => exact impartial_pure last
  | succ count ih =>
    refine (allocate_impartial H _ _).bind fun next => ?_
    have fastened : Impartial (fasten hooks last next) :=
      (impartial_edit _).bind fun _ => release_impartial H next
    exact fastened.bind fun _ => ih next

theorem chain_impartial (H : hooks.Impartial) (length : Nat) (close : Bool) :
    Impartial (chain hooks length close) :=
  (allocate_impartial H _ _).bind fun head => (extendChain_impartial H head _).bind fun _ =>
    .ite ((impartial_edit _).bind fun _ => impartial_pure head) (impartial_pure head)

/-- Inside of a pass no collection ends by the policy. -/
theorem collect_impartial (H : hooks.Impartial) (i : Int) : Impartial (collect hooks i) := by
  refine .of_collector fun c policy => ?_
  rw [H.pass]
  refine .ite (impartial_throw _) ?_
  split
  · exact impartial_throw _
  · exact impartial_starve.bind fun _ => impartial_pure 0
  · contradiction

theorem clearGarbage_impartial (H : hooks.Impartial) : Impartial (clearGarbage hooks) :=
  .of_collector fun c _ => Twins.bind (twins_modifyCollector fun _ policy => ⟨policy, rfl⟩)
    fun _ _ _ => Impartial.bind (Impartial.forM (release_impartial H) c.garbage)
      fun _ => impartial_pure _

/-- A change of the settings that is refused or made whatever the policy is. -/
theorem configure_impartial {f : Collector → Except Fault Collector}
    (blind : ∀ c policy, ∃ policy', f (c.withPolicy policy) = (f c).map (·.withPolicy policy')) :
    Impartial (configure f) := by
  refine .of_collector fun c policy => ?_
  obtain ⟨policy', same⟩ := blind c policy
  rw [same]
  exact (twins_ofExcept_map _ _).bind fun c' _ same => same ▸
    twins_modifyCollector fun _ _ => ⟨policy', rfl⟩

theorem setThresholds_impartial (counts : PerGeneration Nat) :
    Impartial (setThresholds counts) := by
  refine configure_impartial fun c policy => ⟨policy, ?_⟩
  show (c.tracker.setThresholds counts >>= _) = Except.map _ (c.tracker.setThresholds counts >>= _)
  cases c.tracker.setThresholds counts <;> rfl

theorem addCallback_impartial (phase : CallbackPhase) (script : Script) :
    Impartial (addCallback phase script) := by
  refine twins_get.bind fun s _ ⟨policy, journal, same⟩ => same ▸ ?_
  exact Impartial.bind (configure_impartial fun c policy => ⟨policy, rfl⟩) fun _ =>
    Twins.bind (R := Eq) (fun _ _ _ => .ok _ _ rfl) fun _ _ _ => impartial_pure _

theorem snapshot_impartial (slot : Nat) : Impartial (snapshot slot) :=
  .of_collector fun _ _ => Twins.bind (R := Eq) (fun _ _ _ => .ok _ _ rfl) fun _ _ _ =>
    impartial_pure _

theorem snapshotAt_impartial (slot : Nat) : Impartial (snapshotAt slot) :=
  fun _ _ _ => .ok _ _ rfl

theorem advance_impartial {α : Type} (slot : Nat) (take : Snapshot → Heap → α × Snapshot) :
    Impartial (advance slot take) :=
  (snapshotAt_impartial slot).bind fun _ => impartial_heap.bind fun _ =>
    Twins.bind (R := Eq) (fun _ _ _ => .ok _ _ rfl) fun _ _ _ => impartial_pure _

theorem announce_impartial (name : String) (self : ObjectId) : Impartial (announce name self) :=
  (twins_record _ _).bind fun _ _ _ => impartial_print _

theorem detach_impartial : Impartial detach :=
  .of_memory fun m policy => twins_setMemory { m with collector := none } policy

theorem attach_impartial (settings : Settings) : Impartial (attach settings) :=
  .of_memory fun m policy => (twins_setMemory { m with collector := none } policy).bind
    fun _ _ _ => (impartial_ofExcept _).bind fun c =>
      .of_memory fun m _ => twins_setMemory { m with collector := some c } c.policy

/-- A question is answered or refused whatever the policy is. -/
theorem ask_evasive (self : ObjectId) (q : Query) : Evasive (ask self q) := by
  have answered {a b : Answer} :
      Twins (fun _ _ => True) (pure a : Act Answer) (pure b : Act Answer) :=
    fun _ _ _ => .ok _ _ trivial
  cases q with
  | contains _ | find _ | roots | objectCount | freedCount =>
    exact impartial_heap.bind fun _ => answered
  | get _ | strongCount _ | references _ =>
    exact impartial_heap.bind fun _ => (impartial_ofExcept _).bind fun _ => answered
  | report => exact .of_memory fun _ _ => answered
  | isEnabled | thresholds | counts | isTracked _ | generationOf _ | stats | totals | isCollecting
  | debug | policy | garbage => exact .of_collector fun _ _ => answered
  | tracked | referrers _ => exact .of_memory fun _ _ => .of_collector fun _ _ => answered
  | referents _ =>
    exact .of_collector fun _ _ => impartial_heap.bind fun _ =>
      (impartial_ofExcept _).bind fun _ => answered

theorem call_impartial (H : hooks.Impartial) (self : ObjectId) (c : Call) :
    Impartial (call hooks self c) := by
  cases c with
  | allocate kind typeName => exact (allocate_impartial H kind typeName).answer _
  | allocateMany kind count => exact (allocateMany_impartial H kind 0 count).answer _
  | chain length close => exact (chain_impartial H length close).answer _
  | retain _ | addEdge _ _ | clearFinalizer _ => exact (impartial_edit _).answer _
  | release id => exact (release_impartial H _).answer _
  | removeEdge source target =>
    exact Impartial.answer ((impartial_edit _).bind fun _ =>
      Release.dropReference_impartial H.finalization _) _
  | collect generation => exact (collect_impartial H generation).answer _
  | enable | disable | setDebug _ | clearCallbacks =>
    exact (configure_impartial fun c policy => ⟨policy, rfl⟩).answer _
  | setPolicy policy => exact (configure_impartial fun c _ => ⟨policy, rfl⟩).answer _
  | setThresholds counts => exact (setThresholds_impartial counts).answer _
  | clearGarbage => exact (clearGarbage_impartial H).answer _
  | snapshot slot => exact (snapshot_impartial slot).answer _
  | snapshotNext slot | snapshotRemaining slot => exact (advance_impartial slot _).answer _
  | snapshotSize slot => exact (snapshotAt_impartial slot).answer _
  | throw message => exact impartial_throw _
  | announce name => exact (announce_impartial name self).answer _

theorem raw_impartial (H : hooks.Impartial) (self : ObjectId) (r : RawCall) :
    Impartial (raw hooks self r) := by
  have F := H.finalization
  cases r with
  | incRef _ | appendReference _ _ | setFreeing _ _ => exact (impartial_edit _).answer _
  | decRef _ | removeReference _ _ => exact (impartial_editWith _).answer _
  | dropReference id => exact (Release.dropReference_impartial F _).answer _
  | destroy id => exact (Release.destroy_impartial _).answer _
  | runFinalizer id =>
    exact impartial_heap.bind fun _ => (impartial_ofExcept _).bind fun _ =>
      (Release.runFinalizer_impartial F _).answer _
  | collectCycles generation candidates options =>
    exact (Cycles.collect_impartial F _ _ _).answer _
  | attach settings => exact (attach_impartial settings).answer _
  | detach => exact detach_impartial.answer _

/-- Inside of a pass the policy makes no difference to an operation but for what it answers. -/
theorem perform_evasive (H : hooks.Impartial) (self : ObjectId) (op : Op) :
    Evasive (perform hooks self op) := by
  cases op with
  | call c => exact (call_impartial H self c).evasive
  | ask q => exact ask_evasive self q
  | raw r => exact (raw_impartial H self r).evasive
  | setFinalizer id script => exact ((impartial_edit _).answer _).evasive
  | addCallback phase script => exact ((addCallback_impartial phase script).answer _).evasive

/-- A script does not go by what its steps answer. -/
theorem runScript_impartial (H : hooks.Impartial) (self : ObjectId) (script : Script) :
    Impartial (runScript hooks self script) := by
  induction script with
  | nil => exact impartial_pure ()
  | cons step rest ih =>
    refine .of_memory fun m policy => (perform_evasive H self step.op).attempt (fun a b _ => ?_)
      fun e => ?_
    · exact (twins_record _ _).bind fun _ _ _ => ih
    · exact (twins_record _ _).bind fun _ _ _ => .ite ih (impartial_throw e)

end Host

namespace Hooks

theorem inPass_impartial (n : Nat) : (inPass n).Impartial := by
  induction n with
  | zero => exact ⟨fun _ _ => impartial_starve, rfl⟩
  | succ n ih => exact ⟨Host.runScript_impartial ih, rfl⟩

theorem ofPass_impartial (n : Nat) : (ofPass n).Impartial where
  finalization := (inPass_impartial n).finalization
  callback := Host.runScript_impartial (inPass_impartial n) 0

end Hooks

end Reclaim
