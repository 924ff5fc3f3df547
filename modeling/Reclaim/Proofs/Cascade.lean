import Reclaim.Proofs.Conduct

/-!
# Releasing in steps

Giving back a reference, with the cascade of frees and finalizers that it sets off, is a sequence of
steps at whose end the reference is no longer loose (`Release.dropReference_leads`). The queue of a
cascade is what may be marked as being freed besides what was so before: the mark of an object
outlives neither its queue nor a finalizer that runs in between. No fault arises, and the rounds
that `Release.drain` and `Release.cascade` are given are enough.
-/

set_option autoImplicit false

namespace Reclaim

variable {sc : Scope} {b : Bool} {n : Nat} {L L' L'' : Loose} {Q Q' Q'' : ObjectId → Prop}
  {s s' s'' : Machine} {x : ObjectId} {o : Object}

namespace Machine

/-- Steps reach one moment of a run from another. -/
structure Reaches (sc : Scope) (b : Bool) (L : Loose) (s : Machine) (L' : Loose)
    (Q' : ObjectId → Prop) (s' : Machine) : Prop where
  steps : Steps sc (L, s) (L', s')
  there : At sc b L' Q' s'

/-- Steps lead from one moment of a run to another, and no pass begins or ends on the way unless it
does both. -/
structure Leads (sc : Scope) (b : Bool) (L : Loose) (s : Machine) (L' : Loose)
    (Q' : ObjectId → Prop) (s' : Machine) : Prop extends Reaches sc b L s L' Q' s' where
  conduct : Conduct sc b s s'

theorem Reaches.trans {a : Bool} (first : Reaches sc a L s L' Q' s')
    (second : Reaches sc b L' s' L'' Q'' s'') : Reaches sc b L s L'' Q'' s'' :=
  ⟨Relation.ReflTransGen.trans first.steps second.steps, second.there⟩

/-- Where steps lead while a pass is at work, they lead in the whole run. -/
theorem Reaches.lift (reaches : Reaches sc.calm b L s L' Q' s') (A : At sc b L Q s) :
    Reaches sc b L s L' Q' s' where
  steps := reaches.steps.lift
  there := ⟨Steps.sound (Steps.lift reaches.steps) A.sound, reaches.there.freeing,
    reaches.there.collecting⟩

theorem Reaches.unspent_le (reaches : Reaches sc b L s L' Q' s') :
    s'.memory.heap.unspent sc ≤ s.memory.heap.unspent sc :=
  Steps.unspent_le reaches.steps

theorem At.here (A : At sc b L Q s) : Leads sc b L s L Q s := ⟨⟨.refl, A⟩, .refl s⟩

theorem Leads.trans (first : Leads sc b L s L' Q' s') (second : Leads sc b L' s' L'' Q'' s'') :
    Leads sc b L s L'' Q'' s'' :=
  ⟨first.toReaches.trans second.toReaches, first.conduct.trans second.conduct⟩

theorem Leads.mono (leads : Leads sc b L s L' Q s') (sub : ∀ x, Q x → Q' x) :
    Leads sc b L s L' Q' s' :=
  ⟨⟨leads.steps, leads.there.mono sub⟩, leads.conduct⟩

/-- One step, which keeps the marks that it does not account for. -/
theorem At.reach (A : At sc b L Q s) (step : Step sc (L, s) (L', s'))
    (freeing : s'.memory.heap.FreeingIn Q')
    (collecting : s'.memory.isCollecting = s.memory.isCollecting) : Reaches sc b L s L' Q' s' :=
  ⟨.single step, step.sound A.sound, freeing, collecting.trans A.collecting⟩

/-- One step at which no pass begins or ends. -/
theorem At.step (A : At sc b L Q s) (step : Step sc (L, s) (L', s'))
    (freeing : s'.memory.heap.FreeingIn Q')
    (collecting : s'.memory.isCollecting = s.memory.isCollecting) (discreet : Discreet sc b s s') :
    Leads sc b L s L' Q' s' :=
  ⟨A.reach step freeing collecting, discreet.conduct⟩

/-- Two machines differ in their console and the like only. -/
structure Aside (s s' : Machine) : Prop where
  memory : s'.memory = s.memory
  journal : s'.journal = s.journal
  starved : s'.starved = s.starved
  registered : s'.registered = s.registered

theorem Aside.refl (s : Machine) : Aside s s := ⟨rfl, rfl, rfl, rfl⟩

theorem Aside.discreet (aside : Aside s s') : Discreet sc b s s' := by
  have follows : Follows sc s s' := by
    refine .of_heap aside.registered (by rw [aside.memory]) fun _ {_} none => ?_
    rw [aside.memory]
    exact none
  exact follows.quiet aside.journal (by rw [aside.memory])

/-- A step that leaves memory alone. -/
theorem At.aside (A : At sc b L Q s) (aside : Aside s s') : Leads sc b L s L Q s' := by
  refine A.step (.aside aside.memory aside.journal aside.starved) ?_ (by rw [aside.memory])
    aside.discreet
  rw [aside.memory]
  exact A.freeing

theorem At.post (A : At sc b L Q s) (notice : Notice) : Leads sc b L s L Q (s.post notice) :=
  A.aside ⟨rfl, rfl, rfl, rfl⟩

/-- A plain moment is noted. -/
theorem At.note (A : At sc b L Q s) {event : Event} (note : event.isNote = true)
    (plain : Moment.Plain sc b s.memory.books? ⟨event, s.memory⟩) :
    Leads sc b L s L Q (s.log event) :=
  A.step (.note note) A.freeing rfl ((follows_log s event).logs rfl rfl plain)

/-- An edit that leaves pending finalizers alone. -/
theorem At.edit {h' : Heap} (A : At sc b L Q s) (edit : Heap.Edit sc (L, s.memory.heap) (L', h'))
    (freeing : h'.FreeingIn Q')
    (pending : ∀ y, (h'.get? y).map Object.pendingFinalizer? =
      (s.memory.heap.get? y).map Object.pendingFinalizer?) :
    Leads sc b L s L' Q' (s.withHeap h') := by
  have follows : Follows sc s (s.withHeap h') :=
    .of_heap rfl rfl fun _ {y} none => (Heap.pending?_of_map (pending y)).trans none
  exact A.step (.edit edit) freeing rfl (follows.quiet rfl rfl)

/-- A loose reference is one to a live object, which counts it. -/
theorem At.exists_of_loose (A : At sc b (L.add [x]) Q s) :
    ∃ o k, s.memory.heap.get? x = some o ∧ o.strongCount = k + 1 := by
  have B := A.sound.balanced
  obtain ⟨o, hx⟩ := B.exists_of_loose (x := x) (by simp)
  have count := B.count hx
  simp only [Loose.add_apply, List.count_singleton_self] at count
  obtain ⟨k, hk⟩ := Nat.exists_eq_add_one_of_ne_zero (n := o.strongCount) (by omega)
  exact ⟨o, k, hx, hk⟩

/-- A loose reference is given back, and no mark changes. -/
theorem At.lose (A : At sc b (L.add [x]) Q s) (hx : s.memory.heap.get? x = some o)
    (same : o.lose.freeing = o.freeing) :
    Leads sc b (L.add [x]) s L Q (s.withHeap (s.memory.heap.put x o.lose)) := by
  refine A.edit (.lose hx) (A.freeing.put ?_ fun _ _ => id) (Heap.map_get?_put hx (by rfl))
  rw [same]
  exact A.freeing x o hx

/-- The last reference is given back, and the object enters the queue. -/
theorem At.lose_last {queue : List ObjectId}
    (A : At sc b (L.add [x]) (fun y => Q y ∨ y ∈ queue) s) (hx : s.memory.heap.get? x = some o) :
    Leads sc b (L.add [x]) s L (fun y => Q y ∨ y ∈ x :: queue)
      (s.withHeap (s.memory.heap.put x o.lose)) := by
  refine A.edit (.lose hx) (A.freeing.put (fun _ => .inr List.mem_cons_self) ?_)
    (Heap.map_get?_put hx (by rfl))
  rintro y - (hQ | hq)
  · exact .inl hQ
  · exact .inr (List.mem_cons_of_mem x hq)

end Machine

open Machine

/-- Finalizers are run in steps, as long as no more than `n` of them are left. -/
structure Finalization.Sound (sc : Scope) (b : Bool) (n : Nat) (fin : Finalization) : Prop where
  limit : n ≤ fin.limit
  run : ∀ {L Q s self script}, At sc b L Q s → s.memory.heap.unspent sc < n →
    s.memory.heap.isSpent self = true → sc.hooks script →
    (fin.run self script).Always s (Leads sc b L s L Q)

namespace Release

variable {fin : Finalization} {script : Script}

theorem decRef_apply {k : Nat} (hx : s.memory.heap.get? x = some o) (hk : o.strongCount = k + 1) :
    Act.editWith (·.decRef x) s = .ok k
      (s.withHeap (s.memory.heap.put x { o with strongCount := k })) :=
  Act.editWith_of_ok (Heap.decRef_of_get? hx hk)

theorem setFreeing_apply (hx : s.memory.heap.get? x = some o) :
    Act.edit (·.setFreeing x true) s = .ok ()
      (s.withHeap (s.memory.heap.put x { o with freeing := true })) :=
  Act.edit_of_ok (Heap.setFreeing_of_get? hx true)

/-- An object that loses its last reference is marked as being freed right after that. -/
theorem setFreeing_after_decRef (s : Machine) {p : Object} (one : p.strongCount = 1) :
    Act.edit (·.setFreeing x true)
        (s.withHeap (s.memory.heap.put x { p with strongCount := 0 })) =
      .ok () (s.withHeap (s.memory.heap.put x p.lose)) := by
  rw [setFreeing_apply (o := { p with strongCount := 0 }) (by simp), Machine.withHeap_withHeap,
    Machine.withHeap_heap, Heap.put_put]
  simp [Object.lose, one]

/-- An object that has been finalized has no finalizer pending. -/
theorem follows_finalize (s : Machine) (x : ObjectId) (o : Object) : Follows sc s
    ((s.withHeap (s.memory.heap.put x o.markFinalized)).log (.finalizing x)) := by
  refine .of_heap rfl rfl fun _ {y} none => ?_
  rw [log_memory, withHeap_heap, Heap.pending?, Heap.get?_put]
  split
  · rfl
  · exact none

/-- The machine when the finalizer of an object is entered. -/
def entered (s : Machine) (x : ObjectId) (o : Object) : Machine :=
  (s.withHeap (s.memory.heap.put x o.markFinalized)).log (.finalizing x)

/-- The object is marked before its finalizer is entered, so that one less is left inside of it. -/
theorem entered_leads (A : At sc b L Q s) (hx : s.memory.heap.get? x = some o)
    (pending : o.pendingFinalizer? = some script) :
    Leads sc b L s L Q (entered s x o) ∧
      (entered s x o).memory.heap.unspent sc < s.memory.heap.unspent sc ∧
      (entered s x o).memory.heap.isSpent x = true ∧ sc.hooks script := by
  have finalize : Machine.Step sc (L, s) (L, entered s x o) := .finalize hx pending
  have spent : (s.memory.heap.put x o.markFinalized).isSpent x = true :=
    Heap.isSpent_markFinalized (A.sound.balanced.keyed hx).2.2
  obtain ⟨name, hook⟩ := A.sound.within.pending hx pending
  refine ⟨?_, ?_, spent, hook⟩
  · exact A.step finalize (A.freeing.put (fun f => A.freeing x o hx f) fun _ _ => id) rfl
      ((follows_finalize s x o).logs rfl rfl ⟨nofun, A.collecting, rfl, nofun, nofun⟩)
  · exact Heap.unspent_lt finalize.later name (Heap.not_isSpent_of_pending hx pending) spent

/-- A finalizer that fails is reported. -/
theorem runFinalizer_apply (hx : s.memory.heap.get? x = some o)
    (pending : o.pendingFinalizer? = some script) {outcome : Except Fault Unit}
    (ran : Act.attempt (fin.run x script) (entered s x o) = .ok outcome s') :
    runFinalizer fin x s = .ok () (match outcome with
      | .ok _ => s'
      | .error fault =>
        s'.post (.warning s!"exception in finalizer of object #{x}: {fault.message}")) := by
  have bind : (s.memory.heap.get? x).bind (·.pendingFinalizer?) = some script := by
    rw [hx]
    exact pending
  have modified := Heap.modify_eq_put hx (·.markFinalized)
  unfold entered at ran
  cases outcome <;>
    simp only [runFinalizer, Act.bind_apply, Act.heap_apply, bind, Act.setHeap_apply,
      Act.record_apply, modified, ran, Act.pure_apply, Act.post_apply]

/-- Running a pending finalizer uses it up. -/
theorem runFinalizer_leads (F : fin.Sound sc b n) (A : At sc b L Q s)
    (hn : s.memory.heap.unspent sc ≤ n) (hx : s.memory.heap.get? x = some o)
    (pending : o.pendingFinalizer? = some script) :
    ∃ s', runFinalizer fin x s = .ok () s' ∧ Leads sc b L s L Q s' ∧
      s'.memory.heap.unspent sc < s.memory.heap.unspent sc ∧
      s'.memory.heap.pending? x = none := by
  obtain ⟨enters, fewer, spent, hook⟩ := entered_leads A hx pending
  have hook := F.run enters.there (Nat.lt_of_lt_of_le fewer hn) spent hook
  obtain ⟨outcome, s', ran, leads⟩ := Act.attempt_of_always hook
  have run := runFinalizer_apply hx pending ran
  have unspent : s'.memory.heap.unspent sc < s.memory.heap.unspent sc :=
    Nat.lt_of_le_of_lt leads.unspent_le fewer
  have none : s'.memory.heap.pending? x = none :=
    Heap.pending?_of_isSpent ((Steps.later leads.steps).isSpent spent)
  cases outcome with
  | ok _ => exact ⟨s', run, enters.trans leads, unspent, none⟩
  | error fault =>
    exact ⟨_, run, (enters.trans leads).trans (leads.there.post _), unspent, none⟩

/-- A dying object is held while its finalizer runs, so that it is not marked as being freed. -/
theorem hold_leads {queue : List ObjectId} (A : At sc b L (fun y => Q y ∨ y = x ∨ y ∈ queue) s)
    (hx : s.memory.heap.get? x = some o) :
    Leads sc b L s (L.add [x]) (fun y => Q y ∨ y ∈ queue)
      (s.withHeap (s.memory.heap.put x { o.incRef with freeing := false })) := by
  refine A.edit (.hold hx) (A.freeing.put (fun f => absurd f Bool.false_ne_true) ?_)
    (Heap.map_get?_put hx (by rfl))
  -- the mark of the object itself is cleared, so it is not counted among the queue
  rintro y ne (hQ | rfl | hq)
  · exact .inl hQ
  · exact absurd rfl ne
  · exact .inr hq

/-- The finalizer of a dying object runs under a temporary reference, which the object may
outlive. -/
theorem finalizeBeforeFree_leads (F : fin.Sound sc b n) {queue : List ObjectId}
    (A : At sc b L (fun y => Q y ∨ y = x ∨ y ∈ queue) s) (hn : s.memory.heap.unspent sc ≤ n)
    (hx : s.memory.heap.get? x = some o) (pending : o.pendingFinalizer? = some script) :
    ∃ dies s', finalizeBeforeFree fin x s = .ok dies s' ∧
      Leads sc b L s L (fun y => Q y ∨ y ∈ if dies then x :: queue else queue) s' ∧
      s'.memory.heap.unspent sc < s.memory.heap.unspent sc := by
  have held := hold_leads A hx
  have hx' : (s.withHeap (s.memory.heap.put x
      { o.incRef with freeing := false })).memory.heap.get? x =
      some { o.incRef with freeing := false } := by
    rw [withHeap_heap, Heap.get?_put, if_pos rfl]
  obtain ⟨s₁, ran, leads, fewer, -⟩ := runFinalizer_leads F held.there
    (Nat.le_trans held.unspent_le hn) hx' pending
  -- the finalizer cannot free its own object, as the temporary reference is still loose
  obtain ⟨p, k, hp, hk⟩ := leads.there.exists_of_loose
  have modified := Heap.modify_eq_put hx (fun o => { o.incRef with freeing := false })
  cases k with
  | zero =>
    have lost := leads.there.lose_last hp
    refine ⟨true, s₁.withHeap (s₁.memory.heap.put x p.lose), ?_, (held.trans leads).trans lost, ?_⟩
    · simp only [finalizeBeforeFree, afterFinalizer, Act.bind_apply, Act.heap_apply,
        Act.setHeap_apply, modified, ran, decRef_apply hp hk, Nat.lt_irrefl, if_false,
        setFreeing_after_decRef s₁ hk, Act.pure_apply]
    · exact Nat.lt_of_le_of_lt lost.unspent_le (Nat.lt_of_lt_of_le fewer held.unspent_le)
  | succ k =>
    have same : p.lose = { p with strongCount := k + 1 } := by simp [Object.lose, hk]
    have lost := leads.there.lose hp (congrArg (·.freeing) same)
    have ran : finalizeBeforeFree fin x s = .ok false
        ((s₁.withHeap (s₁.memory.heap.put x p.lose)).post
          (.warning s!"object #{x} resurrected by its finalizer")) := by
      simp only [finalizeBeforeFree, afterFinalizer, Act.bind_apply, Act.heap_apply,
        Act.setHeap_apply, modified, ran, decRef_apply hp hk, same, gt_iff_lt, Nat.zero_lt_succ,
        if_true, Act.post_apply, Act.pure_apply]
    exact ⟨false, _, ran, ((held.trans leads).trans lost).trans (lost.there.post _),
      Nat.lt_of_le_of_lt lost.unspent_le (Nat.lt_of_lt_of_le fewer held.unspent_le)⟩

/-! ## The queue -/

theorem settle_leads {queue : List ObjectId} (A : At sc b L (fun y => Q y ∨ y ∈ queue) s) :
    Leads sc b L s L (fun y => Q y ∨ y ∈ (settle s.memory.heap queue).2)
      (s.withHeap (settle s.memory.heap queue).1) := by
  induction queue generalizing s with
  | nil => exact A.here
  | cons x queue ih =>
    unfold settle
    split
    · next dead =>
      -- a dead handle bears no mark, so it may be struck from the queue
      refine ih ⟨A.sound, fun y p hy f => ?_, A.collecting⟩
      rcases A.freeing y p hy f with hQ | hq
      · exact .inl hQ
      · rcases List.mem_cons.mp hq with rfl | hq
        · rw [dead] at hy
          cases hy
        · exact .inr hq
    · next o hx =>
      split
      · next held =>
        rw [Heap.modify_eq_put hx]
        -- an object that is held again loses its mark together with its place
        have spared : Leads sc b L s L (fun y => Q y ∨ y ∈ queue)
            (s.withHeap (s.memory.heap.put x { o with freeing := false })) := by
          refine A.edit (.spare hx held) (A.freeing.put (fun f => absurd f Bool.false_ne_true) ?_)
            (Heap.map_get?_put hx (by rfl))
          rintro y ne (hQ | hq)
          · exact .inl hQ
          · exact .inr (List.mem_of_ne_of_mem ne hq)
        exact spared.trans (ih spared.there)
      · exact A.here

theorem settle_size (h : Heap) (queue : List ObjectId) : (settle h queue).1.size = h.size := by
  induction queue generalizing h with
  | nil => rfl
  | cons x queue ih =>
    unfold settle
    split
    · exact ih h
    · next o hx =>
      split
      · rw [Heap.modify_eq_put hx, ih, Heap.size_put hx]
      · rfl

/-- What is left at the front of the queue has no references. -/
theorem settle_head (h : Heap) (queue : List ObjectId) (x : ObjectId) (rest : List ObjectId)
    (left : (settle h queue).2 = x :: rest) :
    ∃ o, (settle h queue).1.get? x = some o ∧ o.strongCount = 0 := by
  induction queue generalizing h with
  | nil => cases left
  | cons y queue ih =>
    unfold settle at left ⊢
    split at left
    · exact ih h left
    · next o hy =>
      split at left
      · next held => simpa [held] using ih _ left
      · next idle =>
        cases left
        exact ⟨o, by simp only [hy, if_neg idle], Nat.eq_zero_of_not_pos idle⟩

/-- Every reference that a dying object held is given back. -/
theorem surrender_leads {refs : List ObjectId} {queue : List ObjectId}
    (A : At sc b (L.add refs) (fun y => Q y ∨ y ∈ queue) s) :
    ∃ queue' s', surrender queue refs s = .ok queue' s' ∧
      Leads sc b (L.add refs) s L (fun y => Q y ∨ y ∈ queue') s' ∧
      (∀ y, y ∉ refs → s'.memory.heap.get? y = s.memory.heap.get? y) ∧
      s'.memory.heap.size = s.memory.heap.size := by
  induction refs generalizing queue s with
  | nil =>
    rw [Loose.add_nil] at A ⊢
    exact ⟨queue, s, rfl, A.here, fun _ _ => rfl, rfl⟩
  | cons x refs ih =>
    rw [Loose.add_cons] at A ⊢
    -- a loose reference leads to a live object with a positive count, so none is passed over
    obtain ⟨o, k, hx, hk⟩ := A.exists_of_loose
    have held : (o.freeing && o.strongCount == 0) = false := by simp [hk]
    have frame (y : ObjectId) (hy : y ∉ x :: refs) :
        y ∉ refs ∧ (s.memory.heap.put x o.lose).get? y = s.memory.heap.get? y := by
      rw [List.mem_cons, not_or] at hy
      rw [Heap.get?_put, if_neg (Ne.symm hy.1)]
      exact ⟨hy.2, rfl⟩
    have size := Heap.size_put hx o.lose
    by_cases last : (k == 0 && !o.freeing) = true
    · obtain ⟨rfl, fresh⟩ : k = 0 ∧ o.freeing = false := by simpa using last
      have lost := A.lose_last hx
      obtain ⟨queue', s', run, leads, kept, sizes⟩ := ih lost.there
      refine ⟨queue', s', ?_, lost.trans leads, ?_, sizes.trans size⟩
      · rw [← run]
        simp only [surrender, Act.bind_apply, Act.heap_apply, hx, held, Bool.false_eq_true,
          if_false, decRef_apply hx hk, last, if_true, setFreeing_after_decRef s hk]
      · intro y hy
        exact (kept y (frame y hy).1).trans (frame y hy).2
    · -- the object has references left, or it is queued already and marked as it was
      have same : o.lose = { o with strongCount := k } := by
        cases k with
        | zero => simpa [Object.lose, hk] using last
        | succ k => simp [Object.lose, hk]
      have lost := A.lose hx (congrArg (·.freeing) same)
      obtain ⟨queue', s', run, leads, kept, sizes⟩ := ih lost.there
      refine ⟨queue', s', ?_, lost.trans leads, ?_, sizes.trans size⟩
      · rw [← run]
        simp only [surrender, Act.bind_apply, Act.heap_apply, hx, held, Bool.false_eq_true,
          if_false, decRef_apply hx hk, last, same]
      · intro y hy
        exact (kept y (frame y hy).1).trans (frame y hy).2

theorem discreet_destroy {m' : Memory} (A : At sc b L Q s) (hx : s.memory.heap.get? x = some o)
    (unpending : sc.Fixed → o.pendingFinalizer? = none) (run : s.memory.destroy x = .ok m') :
    Discreet sc b s ((s.log (.freeing x)).withMemory m') := by
  have pace := Memory.pace?_destroy run
  rw [Memory.exists_of_destroy hx run] at pace ⊢
  have follows : Follows sc s ((s.log (.freeing x)).withMemory
      { heap := s.memory.heap.erase x,
        collector := s.memory.collector.map fun c =>
          { c with tracker := c.tracker.deallocated o } }) := by
    refine .of_collector rfl rfl (fun _ _ => .refl _) (fun _ _ _ => rfl) fun _ {y} none => ?_
    rw [withMemory_memory, Heap.pending?, Heap.get?_erase]
    split
    · rfl
    · exact none
  refine follows.logs rfl ?_ ⟨nofun, A.collecting, rfl, fun fixed {y} e => ?_, nofun⟩
  · rw [withMemory_memory, Memory.books?_eq, pace, ← Memory.books?_eq]
  · cases e
    rw [Heap.pending?, hx]
    exact unpending fixed

/-- An object that nobody holds and that holds nothing is taken out. -/
theorem destroy_leads (A : At sc b L Q s) (hx : s.memory.heap.get? x = some o)
    (references : o.references = []) (root : o.rootCount = 0)
    (unreferenced : s.memory.heap.inEdges x = 0)
    (unpending : sc.Fixed → o.pendingFinalizer? = none) :
    ∃ s', destroy x s = .ok () s' ∧ Leads sc b L s (L.clear x) (fun y => Q y ∧ y ≠ x) s' ∧
      s'.memory.heap = s.memory.heap.erase x := by
  have destroyed := Memory.destroy_of_get? hx
  refine ⟨_, ?_, A.step (.destroy hx references root unreferenced destroyed) ?_ ?_
    (discreet_destroy A hx unpending destroyed), rfl⟩
  · simp only [destroy, Act.bind_apply, Act.memory_apply, destroyed, Act.ofExcept_ok,
      Act.record_apply, Act.setMemory_apply]
  · intro y p hy f
    rw [withMemory_memory, Heap.get?_erase] at hy
    split at hy
    · cases hy
    · next ne => exact ⟨A.freeing y p hy f, Ne.symm ne⟩
  · show Option.any _ (Option.map _ _) = _
    unfold Memory.isCollecting
    cases s.memory.collector <;> rfl

/-- One round of draining frees the object at the front of the queue. -/
theorem free_leads {queue : List ObjectId} (A : At sc b L (fun y => Q y ∨ y ∈ x :: queue) s)
    (hx : s.memory.heap.get? x = some o) (zero : o.strongCount = 0)
    (unpending : o.pendingFinalizer? = none) :
    ∃ queue' s₁ s', surrender queue o.references
        (s.withHeap (s.memory.heap.put x o.clearReferences)) = .ok queue' s₁ ∧
      destroy x s₁ = .ok () s' ∧ Leads sc b L s L (fun y => Q y ∨ y ∈ queue') s' ∧
      s'.memory.heap.size + 1 = s.memory.heap.size := by
  obtain ⟨root, unreferenced, unloose⟩ := A.sound.balanced.unreferenced hx zero
  have unreachable : ¬ s.memory.heap.Reachable x :=
    Heap.not_reachable_of_unreferenced (Heap.not_rooted hx root) unreferenced
  have unlinked : Leads sc b L s (L.add o.references)
      (fun y => (Q y ∨ y = x) ∨ y ∈ queue)
      (s.withHeap (s.memory.heap.put x o.clearReferences)) := by
    refine A.edit (.unlink hx unreachable (.inl zero)) (A.freeing.put (fun _ => .inl (.inr rfl)) ?_)
      (Heap.map_get?_put hx (by rfl))
    rintro y ne (hQ | hq)
    · exact .inl (.inl hQ)
    · exact .inr (List.mem_of_ne_of_mem ne hq)
  obtain ⟨queue', s₁, surrendered, leads₁, kept, size⟩ := surrender_leads unlinked.there
  -- the object does not refer to itself, so it is still there and still without references
  have self : x ∉ o.references := by
    rw [← Heap.refs_of_get? hx]
    exact Heap.not_mem_refs_of_inEdges_eq_zero unreferenced x
  have hx₁ : s₁.memory.heap.get? x = some o.clearReferences := by
    rw [kept x self, withHeap_heap, Heap.get?_put, if_pos rfl]
  obtain ⟨-, unreferenced₁, -⟩ := leads₁.there.sound.balanced.unreferenced hx₁ zero
  obtain ⟨s', destroyed, leads', heap⟩ :=
    destroy_leads leads₁.there hx₁ rfl root unreferenced₁ fun _ => unpending
  rw [Loose.clear_of_eq_zero unloose] at leads'
  refine ⟨queue', s₁, s', surrendered, destroyed,
    ((unlinked.trans leads₁).trans leads').mono ?_, ?_⟩
  · rintro y ⟨(hQ | rfl) | hq, ne⟩
    · exact .inl hQ
    · exact absurd rfl ne
    · exact .inr hq
  · rw [heap, Heap.size_erase hx₁, size, withHeap_heap, Heap.size_put hx]

/-- Draining the queue ends with it, or with an object whose finalizer has to run. -/
theorem drain_leads {rounds : Nat} {queue : List ObjectId}
    (A : At sc b L (fun y => Q y ∨ y ∈ queue) s) (enough : s.memory.heap.size ≤ rounds) :
    ∃ s', (drain rounds queue s = .ok none s' ∧ Leads sc b L s L Q s') ∨
      ∃ x queue' o script, drain rounds queue s = .ok (some (x, queue')) s' ∧
        Leads sc b L s L (fun y => Q y ∨ y = x ∨ y ∈ queue') s' ∧
        s'.memory.heap.get? x = some o ∧ o.pendingFinalizer? = some script := by
  induction rounds generalizing queue s with
  | zero =>
    -- no round is left when no object is, so nothing can be marked any more
    have settled := settle_leads A
    refine ⟨s.withHeap (settle s.memory.heap queue).1, .inl ⟨rfl, ⟨settled.steps,
      settled.there.sound, fun y p hy _ => ?_, settled.there.collecting⟩, settled.conduct⟩⟩
    have := Heap.size_pos hy
    rw [withHeap_heap, settle_size] at this
    omega
  | succ rounds ih =>
    have settled := settle_leads A
    have size := settle_size s.memory.heap queue
    have head := settle_head s.memory.heap queue
    -- what remains of the queue decides how the round goes on
    generalize hsettle : settle s.memory.heap queue = left at settled size head
    obtain ⟨h, left⟩ := left
    cases left with
    | nil =>
      refine ⟨s.withHeap h, .inl ⟨?_, settled.mono ?_⟩⟩
      · simp only [drain, Act.bind_apply, Act.heap_apply, hsettle, Act.setHeap_apply,
          Act.pure_apply]
      · rintro y (hQ | hq)
        · exact hQ
        · cases hq
    | cons x queue' =>
      obtain ⟨o, hx, zero⟩ := head x queue' rfl
      cases pending : o.pendingFinalizer? with
      | some script =>
        refine ⟨s.withHeap h, .inr ⟨x, queue', o, script, ?_, settled.mono ?_, hx, pending⟩⟩
        · simp only [drain, Act.bind_apply, Act.heap_apply, hsettle, Act.setHeap_apply, hx,
            Object.hasPendingFinalizer, pending, Option.isSome_some, if_true, Act.pure_apply]
        · rintro y (hQ | hq)
          · exact .inl hQ
          · exact .inr (List.mem_cons.mp hq)
      | none =>
        obtain ⟨queue₂, s₁, s₂, surrendered, destroyed, freed, less⟩ :=
          free_leads settled.there hx zero pending
        have step : drain (rounds + 1) queue s = drain rounds queue₂ s₂ := by
          rw [withHeap_withHeap, withHeap_heap] at surrendered
          simp only [drain, Act.bind_apply, Act.heap_apply, hsettle, Act.setHeap_apply, hx,
            Object.hasPendingFinalizer, pending, Option.isSome_none, Bool.false_eq_true, if_false,
            withHeap_withHeap, surrendered, destroyed]
        have enough : s₂.memory.heap.size ≤ rounds := by
          rw [withHeap_heap, size] at less
          omega
        have freed := settled.trans freed
        rcases ih freed.there enough with
          ⟨s', ⟨run, leads⟩ | ⟨y, queue', p, script, run, leads, found⟩⟩
        · exact ⟨s', .inl ⟨step.trans run, freed.trans leads⟩⟩
        · exact ⟨s', .inr ⟨y, queue', p, script, step.trans run, freed.trans leads, found⟩⟩

/-- With one round for every finalizer that is left, a cascade comes to its end. -/
theorem cascade_leads (F : fin.Sound sc b n) {rounds : Nat} {queue : List ObjectId}
    (A : At sc b L (fun y => Q y ∨ y ∈ queue) s) (hn : s.memory.heap.unspent sc ≤ n)
    (enough : s.memory.heap.unspent sc < rounds) :
    ∃ s', cascade fin rounds queue s = .ok () s' ∧ Leads sc b L s L Q s' := by
  induction rounds generalizing queue s with
  | zero => omega
  | succ rounds ih =>
    obtain ⟨s₁, ⟨run, leads⟩ | ⟨x, queue', o, script, run, leads, hx, pending⟩⟩ :=
      drain_leads A (Nat.le_refl _)
    · exact ⟨s₁, by simp only [cascade, Act.bind_apply, Act.heap_apply, run, Act.pure_apply], leads⟩
    -- each round but the last uses up a finalizer
    · have drained := leads.unspent_le
      obtain ⟨dies, s₂, run₂, leads₂, fewer⟩ := finalizeBeforeFree_leads F leads.there
        (Nat.le_trans drained hn) hx pending
      obtain ⟨s', run', leads'⟩ := ih leads₂.there (by omega) (by omega)
      refine ⟨s', ?_, (leads.trans leads₂).trans leads'⟩
      rw [← run']
      simp only [cascade, Act.bind_apply, Act.heap_apply, run, run₂]
      cases dies <;> rfl

/-- A reference that is not the last one is given back without a cascade. -/
theorem dropReference_of_more {k : Nat} (hx : s.memory.heap.get? x = some o)
    (more : o.strongCount = k + 2) :
    dropReference fin x s =
      .ok () (s.withHeap (s.memory.heap.put x { o with strongCount := k + 1 })) := by
  simp only [dropReference, Act.bind_apply, decRef_apply hx more, gt_iff_lt, Nat.zero_lt_succ,
    if_true, Act.pure_apply]

/-- Giving back a reference takes a loose one away, and nothing else is loose or marked afterwards
that was not before. -/
theorem dropReference_leads (F : fin.Sound sc b n) (A : At sc b (L.add [x]) Q s)
    (hn : s.memory.heap.unspent sc ≤ n) :
    ∃ s', dropReference fin x s = .ok () s' ∧ Leads sc b (L.add [x]) s L Q s' := by
  obtain ⟨o, k, hx, hk⟩ := A.exists_of_loose
  cases k with
  | zero =>
    have lost : Leads sc b (L.add [x]) s L (fun y => Q y ∨ y ∈ [x])
        (s.withHeap (s.memory.heap.put x o.lose)) := (A.mono fun _ => .inl).lose_last hx
    have unspent := lost.unspent_le
    have limit := F.limit
    obtain ⟨s', run, leads⟩ := cascade_leads F lost.there (Nat.le_trans unspent hn)
      (Nat.lt_succ_of_le (Nat.le_trans (Nat.le_trans unspent hn) limit))
    refine ⟨s', ?_, lost.trans leads⟩
    rw [← run]
    simp only [dropReference, Act.bind_apply, decRef_apply hx hk, gt_iff_lt, Nat.lt_irrefl,
      if_false, setFreeing_after_decRef s hk]
  | succ k =>
    have same : o.lose = { o with strongCount := k + 1 } := by simp [Object.lose, hk]
    refine ⟨s.withHeap (s.memory.heap.put x o.lose), ?_, A.lose hx (congrArg (·.freeing) same)⟩
    rw [dropReference_of_more hx hk, same]

end Release

end Reclaim
