import Reclaim.Proofs.FullCollection

/-!
# Collections are transparent

A program that only uses handles which the host reaches cannot tell when garbage is collected
(`Machine.collections_transparent`). Two runs of it, under different settings and with collections
inserted into one of them, are kept in step by the agreement of their heaps: a call is an edit that
depends on what is reached only (`Heap.Agree.apply`), followed by shedding
(`Machine.Serves.perform_agree`).
-/

set_option autoImplicit false

namespace Reclaim

open Machine

variable {h h₁ h₂ h₁' h₂' : Heap} {s s₁ s₂ : Machine} {c : Call} {x y : ObjectId} {o : Object}

namespace Call

/-- The calls that programs consist of. -/
def isMutator : Call → Bool
  | .allocate _ _ => true
  | .retain _ => true
  | .release _ => true
  | .addEdge _ _ => true
  | .removeEdge _ _ => true
  | _ => false

/-- The host asks for a collection. -/
def isCollect : Call → Bool
  | .collect _ => true
  | _ => false

/-- The handles that a call of a program names. -/
def operands : Call → List ObjectId
  | .retain id => [id.resolve 0]
  | .release id => [id.resolve 0]
  | .addEdge source target => [source.resolve 0, target.resolve 0]
  | .removeEdge source target => [source.resolve 0, target.resolve 0]
  | _ => []

end Call

namespace Heap

/-- What a call of a program does to the heap itself, frees and passes left out. -/
def apply (h : Heap) : Call → Except Fault Heap
  | .allocate kind typeName => .ok (h.allocate kind typeName).2
  | .retain id => h.retain (id.resolve 0)
  | .release id => h.giveUpRoot (id.resolve 0)
  | .addEdge source target => h.addEdge (source.resolve 0) (target.resolve 0)
  | .removeEdge source target => h.cut (source.resolve 0) (target.resolve 0)
  | _ => .ok h

/-- What a call of a program answers with if it is not refused. -/
def answer (h : Heap) : Call → Answer
  | .allocate _ _ => .nat h.nextId
  | _ => .done

/-! ## Edits of heaps that agree -/

/-- Objects that are reached are live in both heaps, and of one shape. -/
theorem Agree.exists_of_reachable {L : Loose} (A : h₁.Agree h₂) (B : h₁.Balanced L)
    (reach : h₁.Reachable x) :
    ∃ o p, h₁.get? x = some o ∧ h₂.get? x = some p ∧ p.shape = o.shape := by
  obtain ⟨o, ho⟩ := B.live_of_reachable reach
  have same := A.left x reach
  rw [shape?_of_get? ho] at same
  obtain ⟨p, hp, e⟩ := exists_of_shape? same
  exact ⟨o, p, ho, hp, e⟩

/-- Agreement is a matter of shapes. -/
theorem Agree.congr (A : h₁.Agree h₂) (nextId : h₁'.nextId = h₂'.nextId)
    (left : ∀ x, h₁'.shape? x = h₁.shape? x) (right : ∀ x, h₂'.shape? x = h₂.shape? x) :
    h₁'.Agree h₂' where
  nextId := nextId
  left x reach := by
    rw [left, right]
    exact A.left x (reach.transfer fun y _ => (left y).symm)
  right x reach := by
    rw [left, right]
    exact A.right x (reach.transfer fun y _ => (right y).symm)

theorem shape?_put (h : Heap) (x : ObjectId) (o : Object) (y : ObjectId) :
    (h.put x o).shape? y = if x = y then some o.shape else h.shape? y := by
  unfold shape?
  rw [get?_put]
  split <;> rfl

/-- An object that only refers to what is reached brings up nothing but itself. -/
theorem Reachable.of_put (inner : ∀ y ∈ o.references, h.Reachable y)
    (reach : (h.put x o).Reachable y) : y = x ∨ h.Reachable y := by
  refine reach.within (S := fun y => y = x ∨ h.Reachable y) ?_ ?_
  · intro z rooted
    obtain ⟨p, hp, pos⟩ := rooted
    rw [get?_put] at hp
    split at hp
    · next e => exact .inl e.symm
    · exact .inr (.root ⟨p, hp, pos⟩)
  · intro r z hr hz
    rw [refs_put] at hz
    -- what the new object refers to was reached before
    split at hz
    · exact .inr (inner z hz)
    · next ne => exact .inr (.step (hr.resolve_left (Ne.symm ne)) hz)

/-- Objects of one shape that only refer to what is reached may be put into heaps that agree. -/
theorem Agree.put {p : Object} (A : h₁.Agree h₂) (same : p.shape = o.shape)
    (inner : ∀ y ∈ o.references, h₁.Reachable y) : (h₁.put x o).Agree (h₂.put x p) where
  nextId := A.nextId
  left y reach := by
    rw [shape?_put, shape?_put]
    split
    · rw [same]
    · next ne => exact A.left y ((reach.of_put inner).resolve_left (Ne.symm ne))
  right y reach := by
    have references : p.references = o.references := congrArg (·.references) same
    rw [shape?_put, shape?_put]
    split
    · rw [same]
    · next ne =>
      -- the other object has the same references, which are reached in the other heap as well
      refine A.right y ((reach.of_put fun z hz => ?_).resolve_left (Ne.symm ne))
      exact A.reachable.mp (inner z (references ▸ hz))

/-- Edits that are refused in the same way, or lead to heaps that agree. -/
inductive Alike : Except Fault Heap → Except Fault Heap → Prop where
  | ok {h₁ h₂ : Heap} : h₁.Agree h₂ → Alike (.ok h₁) (.ok h₂)
  | error {e : Fault} : Alike (.error e) (.error e)

section

variable {L : Loose}

theorem Agree.retain (A : h₁.Agree h₂) (B : h₁.Balanced L) (reach : h₁.Reachable x) :
    Alike (h₁.retain x) (h₂.retain x) := by
  obtain ⟨o, p, ho, hp, same⟩ := A.exists_of_reachable B reach
  simp only [Heap.retain, get_of_get? ho, get_of_get? hp, Except.bind, bind, pure, Except.pure]
  refine .ok (A.put ?_ fun y hy => .step reach (by rwa [refs_of_get? ho]))
  simp only [Object.shape, Object.addRoot, Object.incRef, Object.mk.injEq] at same ⊢
  simp [same]

theorem Agree.giveUpRoot (A : h₁.Agree h₂) (B : h₁.Balanced L) (reach : h₁.Reachable x) :
    Alike (h₁.giveUpRoot x) (h₂.giveUpRoot x) := by
  obtain ⟨o, p, ho, hp, same⟩ := A.exists_of_reachable B reach
  have root : p.rootCount = o.rootCount := congrArg (·.rootCount) same
  have id : p.id = o.id := congrArg (·.id) same
  simp only [Heap.giveUpRoot, get_of_get? ho, get_of_get? hp, Object.removeRoot, root, id,
    Except.bind, bind, pure, Except.pure]
  cases o.rootCount with
  | zero => exact .error
  | succ n =>
    refine .ok (A.put ?_ fun y hy => .step reach (by rwa [refs_of_get? ho]))
    simp only [Object.shape, Object.mk.injEq] at same ⊢
    simp [same]

theorem Agree.addEdge (A : h₁.Agree h₂) (B : h₁.Balanced L) (reach : h₁.Reachable x)
    (target : h₁.Reachable y) : Alike (h₁.addEdge x y) (h₂.addEdge x y) := by
  obtain ⟨o, p, ho, hp, same⟩ := A.exists_of_reachable B reach
  obtain ⟨o', p', ho', hp', -⟩ := A.exists_of_reachable B target
  have kind : p.isContainer = o.isContainer := congrArg (·.isContainer) same
  simp only [Heap.addEdge, get_of_get? ho, get_of_get? hp, get_of_get? ho', get_of_get? hp', kind,
    Except.bind, bind, pure, Except.pure]
  cases o.isContainer with
  | false => exact .error
  | true =>
    -- counting the new reference does not change the shape of its target
    have extended : (h₁.put x (o.appendReference y)).Agree (h₂.put x (p.appendReference y)) := by
      refine A.put ?_ ?_
      · simp only [Object.shape, Object.appendReference, Object.mk.injEq] at same ⊢
        simp [same]
      · intro z hz
        rcases List.mem_append.mp hz with hz | hz
        · exact .step reach (by rwa [refs_of_get? ho])
        · rwa [List.mem_singleton.mp hz]
    exact .ok (extended.congr A.nextId (map_get?_modify (by intro; rfl) y)
      (map_get?_modify (by intro; rfl) y))

theorem Agree.cut (A : h₁.Agree h₂) (B : h₁.Balanced L) (reach : h₁.Reachable x) (y : ObjectId) :
    Alike (h₁.cut x y) (h₂.cut x y) := by
  obtain ⟨o, p, ho, hp, same⟩ := A.exists_of_reachable B reach
  have references : p.references = o.references := congrArg (·.references) same
  simp only [Heap.cut, get_of_get? ho, get_of_get? hp, Object.removeReference?, references,
    Except.bind, bind, pure, Except.pure]
  by_cases mem : y ∈ o.references
  · simp only [mem, if_true]
    refine .ok (A.put ?_ fun z hz => .step reach ?_)
    · simp only [Object.shape, Object.mk.injEq] at same ⊢
      simp [same]
    · rw [refs_of_get? ho]
      exact List.mem_of_mem_erase hz
  · simp only [mem, if_false]
    exact .error

theorem Agree.allocate (A : h₁.Agree h₂) (kind : Kind) (typeName : String) :
    (h₁.allocate kind typeName).2.Agree (h₂.allocate kind typeName).2 := by
  have put : (h₁.put h₁.nextId (h₁.allocate kind typeName).1).Agree
      (h₂.put h₁.nextId (h₁.allocate kind typeName).1) := A.put rfl nofun
  refine put.congr (congrArg (· + 1) A.nextId) (fun _ => rfl) ?_
  intro y
  unfold Heap.allocate
  rw [A.nextId]
  rfl

/-- What the host reaches of a heap, without counts and what the library notes. -/
noncomputable def reached (h : Heap) (x : ObjectId) : Option Object :=
  open Classical in if h.Reachable x then h.shape? x else none

theorem Agree.reached (A : h₁.Agree h₂) : h₁.reached = h₂.reached := by
  funext x
  unfold Heap.reached
  by_cases reach : h₁.Reachable x
  · rw [if_pos reach, if_pos (A.reachable.mp reach), A.left x reach]
  · rw [if_neg reach, if_neg (mt A.reachable.mpr reach)]

/-- Heaps are the same to a host: they have the same objects, counted alike, and have given out and
freed the same number of them. -/
structure Same (h₁ h₂ : Heap) : Prop where
  objects : ∀ x, (h₁.get? x).map Object.bare = (h₂.get? x).map Object.bare
  nextId : h₁.nextId = h₂.nextId
  freed : h₁.freed = h₂.freed

/-- Counts follow from shapes where they agree with references. -/
theorem bare_eq_of_shape? (C₁ : h₁.Consistent) (C₂ : h₂.Consistent)
    (same : ∀ x, h₁.shape? x = h₂.shape? x) (x : ObjectId) :
    (h₁.get? x).map Object.bare = (h₂.get? x).map Object.bare := by
  have shapes := same x
  have edges := inEdges_congr (fun r => refs_of_shape? (same r)) x
  unfold shape? at shapes
  cases ho : h₁.get? x with
  | none =>
    rw [ho, Option.map_none, eq_comm, Option.map_eq_none_iff] at shapes
    rw [shapes]
  | some o =>
    rw [ho, Option.map_some, eq_comm, Option.map_eq_some_iff] at shapes
    obtain ⟨p, hp, shape⟩ := shapes
    rw [hp, Option.map_some, Option.map_some]
    have root : p.rootCount = o.rootCount := congrArg (·.rootCount) shape
    have count : p.strongCount = o.strongCount := by
      rw [C₁.count ho, C₂.count hp, edges, root]
    have freeing : p.freeing = o.freeing := by
      rw [C₁.settled ho, C₂.settled hp]
    simp only [Object.shape, Object.bare, Object.mk.injEq] at shape ⊢
    simp [shape, count, freeing]

theorem same_of_shape? (C₁ : h₁.Consistent) (C₂ : h₂.Consistent) (N₁ : h₁.Accounts)
    (N₂ : h₂.Accounts) (nextId : h₁.nextId = h₂.nextId)
    (same : ∀ x, h₁.shape? x = h₂.shape? x) : h₁.Same h₂ where
  objects := bare_eq_of_shape? C₁ C₂ same
  nextId := nextId
  freed := by
    refine N₂.freed_eq N₁ nextId (live_congr fun x => ?_)
    have e := congrArg Option.isSome (same x)
    rwa [shape?, shape?, Option.isSome_map, Option.isSome_map] at e

theorem Same.agree (same : h₁.Same h₂) : h₁.Agree h₂ := by
  refine (sheds_of_shape? same.nextId.symm fun x => ?_).agree
  have e := congrArg (Option.map Object.shape) (same.objects x)
  rw [Option.map_map, Option.map_map] at e
  exact e.symm

theorem Same.unreached (same : h₁.Same h₂) : h₂.unreached = h₁.unreached := by
  ext x
  have container : (∃ o, h₂.get? x = some o ∧ o.kind = .container) ↔
      ∃ o, h₁.get? x = some o ∧ o.kind = .container := by
    have e := congrArg (Option.map (·.kind)) (same.objects x)
    rw [Option.map_map, Option.map_map] at e
    have kinds : (h₁.get? x).map (·.kind) = (h₂.get? x).map (·.kind) := e
    rw [← Option.map_eq_some_iff, ← Option.map_eq_some_iff, kinds]
  exact and_congr container (not_congr same.agree.reachable.symm)

theorem Agree.answer (A : h₁.Agree h₂) (c : Call) : h₁.answer c = h₂.answer c := by
  unfold Heap.answer
  rw [A.nextId]

/-- Without frees and passes, a call does the same to heaps that agree. -/
theorem Agree.apply (A : h₁.Agree h₂) (B : h₁.Balanced L)
    (reach : ∀ x ∈ c.operands, h₁.Reachable x) : Alike (h₁.apply c) (h₂.apply c) := by
  cases c with
  | allocate kind typeName => exact .ok (A.allocate kind typeName)
  | retain id => exact A.retain B (reach _ List.mem_cons_self)
  | release id => exact A.giveUpRoot B (reach _ List.mem_cons_self)
  | addEdge source target =>
    exact A.addEdge B (reach _ List.mem_cons_self)
      (reach _ (List.mem_cons_of_mem _ List.mem_cons_self))
  | removeEdge source target => exact A.cut B (reach _ List.mem_cons_self) _
  | _ => exact .ok A

end

end Heap

/-! ## Full collections of heaps that agree -/

/-- After a full collection, what is left is what the host reached. -/
theorem Memory.Watched.collected (W : s.memory.Watched) {c : Collector}
    (hc : s.memory.collector = some c) (off : c.debug.has .saveAll = false) (x : ObjectId) :
    (s.perform (.call (.collect 2))).2.memory.heap.shape? x = s.memory.heap.reached x := by
  obtain ⟨-, -, -, -, sheds, -⟩ := W.collect hc off
  have live := W.collect_live (x := x) hc off
  unfold Heap.reached
  split
  · next reach => exact sheds.kept x reach
  · next unreachable =>
    have dead := Option.eq_none_iff_forall_not_mem.mpr fun p hp => unreachable (live.mp ⟨p, hp⟩)
    rw [Heap.shape?, dead, Option.map_none]

/-- After full collections, heaps that agree are the same. -/
theorem Memory.Watched.collect_same {c₁ c₂ : Collector} (W₁ : s₁.memory.Watched)
    (W₂ : s₂.memory.Watched) (hc₁ : s₁.memory.collector = some c₁)
    (hc₂ : s₂.memory.collector = some c₂) (off₁ : c₁.debug.has .saveAll = false)
    (off₂ : c₂.debug.has .saveAll = false) (N₁ : s₁.memory.heap.Accounts)
    (N₂ : s₂.memory.heap.Accounts) (A : s₁.memory.heap.Agree s₂.memory.heap) :
    (s₁.perform (.call (.collect 2))).2.memory.heap.Same
      (s₂.perform (.call (.collect 2))).2.memory.heap := by
  obtain ⟨-, -, -, -, sheds₁, -⟩ := W₁.collect hc₁ off₁
  obtain ⟨-, -, -, -, sheds₂, -⟩ := W₂.collect hc₂ off₂
  refine Heap.same_of_shape? (perform_settled W₁.settled rfl).consistent
    (perform_settled W₂.settled rfl).consistent (perform_accounts W₁.settled rfl N₁)
    (perform_accounts W₂.settled rfl N₂) ?_ fun x => ?_
  · rw [sheds₁.nextId, A.nextId, sheds₂.nextId]
  · rw [W₁.collected hc₁ off₁, W₂.collected hc₂ off₂, A.reached]

/-! ## Machines that serve programs -/

/-- What may happen while a program runs into which collections are inserted. -/
def Scope.program : Scope :=
  .plain (fun op => ∃ c, op = .call c ∧ (c.isMutator || c.isCollect) = true) False
    (fun op ⟨c, e, _⟩ => by rw [e]; rfl) (fun f ⟨c, e, served⟩ => by cases e; cases served)

namespace Machine

/-- A machine between the calls of a program: no hooks are installed, no garbage is kept, and the
collector knows all containers. -/
structure Serves (s : Machine) : Prop where
  settled : s.memory.Settled
  within : s.memory.Within .program
  accounts : s.memory.heap.Accounts
  filesAll : s.memory.FilesAll
  collector : ∃ c, s.memory.collector = some c

/-- What is within the scope of a program is within that of the library. -/
theorem At.idle {b : Bool} {L : Loose} {Q : ObjectId → Prop} (A : At .program b L Q s) :
    At .idle b L Q s where
  sound := ⟨A.sound.balanced, A.sound.files, A.sound.within.pending, A.sound.within.callbacks,
    fun passes _ => A.sound.within.saving passes (.inl rfl)⟩
  freeing := A.freeing
  collecting := A.collecting

namespace Serves

theorem begun (S : s.Serves) : At .program false Loose.none (fun _ => False) s.forget :=
  S.settled.at (s := s.forget) S.within

theorem perform (S : s.Serves) (served : (c.isMutator || c.isCollect) = true) :
    (s.perform (.call c)).2.Serves := by
  have leads : Leads .program false Loose.none s.forget Loose.none (fun _ => False)
      (s.perform (.call c)).2 := perform_leads S.settled S.within trivial ⟨c, rfl, served⟩
        (Nat.zero_le _)
  obtain ⟨k, hk⟩ := S.collector
  exact ⟨perform_settled S.settled rfl, leads.there.sound.within,
    Steps.accounts leads.steps S.begun.sound S.accounts,
    Steps.filesAll leads.steps S.begun.sound S.filesAll, leads.exists_collector hk⟩

theorem active : Scope.program.Active := fun _ => .inr ⟨_, .retain .self, rfl, rfl⟩

/-- A reference that is taken from its holder is given back, and garbage is shed. -/
theorem drop (S : s.Serves) (op : Op)
    (edit : Heap.Edit .program (Loose.none, s.memory.heap) (Loose.none.add [x], h))
    (freeing : h.FreeingIn fun _ => False) :
    ∃ s', Release.dropReference (s.hooksFor op).finalization x (s.forget.withHeap h) = .ok () s' ∧
      h.Sheds s'.memory.heap := by
  have H : (s.hooksFor op).Sound .idle false _ := Hooks.outside_sound .idle trivial _
  -- taking the reference is the host's doing, giving it back the library's own
  have given : Reaches .program false Loose.none s.forget (Loose.none.add [x]) (fun _ => False)
      (s.forget.withHeap h) := S.begun.reach (.edit edit) freeing rfl
  obtain ⟨s', dropped, leads⟩ := Release.dropReference_leads H.finalization given.there.idle
    (Nat.zero_le _)
  exact ⟨s', dropped, given.there.idle.sheds leads.steps⟩

/-- An allocation puts the new object into the heap, and garbage is shed. -/
theorem allocate (S : s.Serves) (op : Op) (kind : Kind) (typeName : String) :
    ∃ s', Host.allocate (s.hooksFor op) kind typeName s.forget = .ok s.memory.heap.nextId s' ∧
      (s.memory.heap.allocate kind typeName).2.Sheds s'.memory.heap := by
  have H : (s.hooksFor op).Sound .idle false _ := Hooks.outside_sound .idle trivial _
  -- the passes that the allocation starts are the library's own doing
  have inserted := (Host.insert_leads (active _) S.begun kind typeName).there.idle
  obtain ⟨s', run, leads⟩ := Host.afterAllocation_leads H (.inl rfl) inserted (Nat.zero_le _)
  refine ⟨s', Host.allocate_of_ok run, ?_⟩
  have sheds := inserted.sheds leads.steps
  rwa [Memory.allocate_eq] at sheds

/-- A call of a program does what it does to the heap itself, and garbage is shed. -/
theorem perform_of_ok (S : s.Serves) (mutator : c.isMutator = true)
    (run : s.memory.heap.apply c = .ok h) :
    (s.perform (.call c)).1.outcome = .ok (s.memory.heap.answer c) ∧
      h.Sheds (s.perform (.call c)).2.memory.heap := by
  have active := active
  have freeing := S.settled.freeing
  -- it is enough to look at the action, as the record is made from its outcome
  suffices performed : ∃ s', Host.perform (s.hooksFor (.call c)) 0 (.call c) s.forget =
      .ok (s.memory.heap.answer c) s' ∧ h.Sheds s'.memory.heap by
    obtain ⟨s', performed, sheds⟩ := performed
    rw [Machine.perform_of_ok performed]
    exact ⟨rfl, sheds⟩
  cases c with
  | allocate kind typeName =>
    cases run
    obtain ⟨s', allocated, sheds⟩ := S.allocate (.call (.allocate kind typeName)) kind typeName
    refine ⟨s', ?_, sheds⟩
    simp only [Host.perform, Host.call, Act.bind_apply, allocated, Act.pure_apply, Heap.answer]
  | retain id =>
    have edited := Act.edit_of_ok (s := s.forget) (f := (·.retain (id.resolve 0))) run
    refine ⟨s.forget.withHeap h, ?_, .refl _⟩
    simp only [Host.perform, Host.call, Host.retain, Act.bind_apply, edited, Act.pure_apply,
      Heap.answer]
  | release id =>
    obtain ⟨s', dropped, sheds⟩ := S.drop (.call (.release id)) (.giveUpRoot (active _) run)
      (freeing.giveUpRoot run)
    refine ⟨s', ?_, sheds⟩
    simp only [Host.perform, Host.call, Act.bind_apply, Host.release_of_ok (s := s.forget) run,
      dropped, Act.pure_apply, Heap.answer]
  | addEdge source target =>
    have edited := Act.edit_of_ok (s := s.forget)
      (f := (·.addEdge (source.resolve 0) (target.resolve 0))) run
    refine ⟨s.forget.withHeap h, ?_, .refl _⟩
    simp only [Host.perform, Host.call, Host.addEdge, Act.bind_apply, edited, Act.pure_apply,
      Heap.answer]
  | removeEdge source target =>
    obtain ⟨s', dropped, sheds⟩ := S.drop (.call (.removeEdge source target)) (.cut (active _) run)
      (freeing.cut run)
    refine ⟨s', ?_, sheds⟩
    simp only [Host.perform, Host.call, Act.bind_apply,
      Host.removeEdge_of_ok (s := s.forget) run, dropped, Act.pure_apply, Heap.answer]
  | _ => cases mutator

/-- A call of a program that is refused changes nothing. -/
theorem perform_of_error (mutator : c.isMutator = true) {e : Fault}
    (run : s.memory.heap.apply c = .error e) :
    (s.perform (.call c)).1.outcome = .error e ∧
      (s.perform (.call c)).2.memory.heap = s.memory.heap := by
  suffices performed : Host.perform (s.hooksFor (.call c)) 0 (.call c) s.forget =
      .error e s.forget by
    rw [Machine.perform_of_error performed]
    exact ⟨rfl, rfl⟩
  cases c with
  | allocate kind typeName => cases run
  | retain id =>
    have edited := Act.edit_of_error (s := s.forget) (f := (·.retain (id.resolve 0))) run
    simp only [Host.perform, Host.call, Host.retain, Act.bind_apply, edited]
  | release id =>
    simp only [Host.perform, Host.call, Act.bind_apply, Host.release_of_error (s := s.forget) run]
  | addEdge source target =>
    have edited := Act.edit_of_error (s := s.forget)
      (f := (·.addEdge (source.resolve 0) (target.resolve 0))) run
    simp only [Host.perform, Host.call, Host.addEdge, Act.bind_apply, edited]
  | removeEdge source target =>
    simp only [Host.perform, Host.call, Act.bind_apply,
      Host.removeEdge_of_error (s := s.forget) run]
  | _ => cases mutator

/-- A collection sheds garbage, whatever generation it is asked for. -/
theorem collect (S : s.Serves) (g : Int) :
    s.memory.heap.Sheds (s.perform (.call (.collect g))).2.memory.heap := by
  have H : (s.hooksFor (.call (.collect g))).Sound .idle false _ :=
    Hooks.outside_sound .idle trivial _
  have leads : Leads .idle false Loose.none s.forget Loose.none (fun _ => False)
      (s.perform (.call (.collect g))).2 :=
    perform_of_always (((Host.collect_safe H (.inl rfl) g).answer Answer.nat) _ _ _ S.begun.idle
      (Nat.zero_le _) S.settled.balanced.isSpent_zero)
  exact S.begun.idle.sheds leads.steps

/-- Machines whose heaps agree perform a call alike. -/
theorem perform_agree (S₁ : s₁.Serves) (S₂ : s₂.Serves) (A : s₁.memory.heap.Agree s₂.memory.heap)
    (mutator : c.isMutator = true) (reach : ∀ x ∈ c.operands, s₁.memory.heap.Reachable x) :
    (s₁.perform (.call c)).1.outcome = (s₂.perform (.call c)).1.outcome ∧
      (s₁.perform (.call c)).2.memory.heap.Agree (s₂.perform (.call c)).2.memory.heap := by
  have alike := A.apply S₁.settled.balanced reach
  -- the call is refused in both heaps or in neither
  cases run₁ : s₁.memory.heap.apply c <;> cases run₂ : s₂.memory.heap.apply c <;>
    rw [run₁, run₂] at alike <;> cases alike
  · obtain ⟨outcome₁, same₁⟩ := perform_of_error mutator run₁
    obtain ⟨outcome₂, same₂⟩ := perform_of_error mutator run₂
    rw [outcome₁, outcome₂, same₁, same₂]
    exact ⟨rfl, A⟩
  · next agree =>
    obtain ⟨outcome₁, sheds₁⟩ := S₁.perform_of_ok mutator run₁
    obtain ⟨outcome₂, sheds₂⟩ := S₂.perform_of_ok mutator run₂
    rw [outcome₁, outcome₂, A.answer]
    exact ⟨rfl, sheds₁.agree.symm.trans (agree.trans sheds₂.agree)⟩

theorem watched (S : s.Serves) : s.memory.Watched :=
  ⟨S.settled, ⟨S.within.pending, S.within.callbacks, fun _ _ {_} _ _ => trivial⟩, S.filesAll⟩

theorem discards (S : s.Serves) {c : Collector} (hc : s.memory.collector = some c) :
    c.debug.has .saveAll = false :=
  Bool.eq_false_iff.mpr fun on => S.within.saving trivial (active _) hc on

/-- After full collections, heaps that agree are the same. -/
theorem collect_same (S₁ : s₁.Serves) (S₂ : s₂.Serves)
    (A : s₁.memory.heap.Agree s₂.memory.heap) :
    (s₁.perform (.call (.collect 2))).2.memory.heap.Same
      (s₂.perform (.call (.collect 2))).2.memory.heap := by
  obtain ⟨c₁, hc₁⟩ := S₁.collector
  obtain ⟨c₂, hc₂⟩ := S₂.collector
  exact S₁.watched.collect_same S₂.watched hc₁ hc₂ (S₁.discards hc₁) (S₂.discards hc₂) S₁.accounts
    S₂.accounts A

end Serves

/-- A collector that starts on an empty heap and keeps no garbage serves programs. -/
theorem serves_of_start {settings : Settings} (start : Machine.start (some settings) = .ok s)
    (off : settings.debug.has .saveAll = false) : s.Serves := by
  have W := Watched.memory (.start settings start)
  obtain ⟨c, hc, run⟩ := Heap.exists_of_bind start
  cases run
  have debug : c.debug = settings.debug := (Collector.start_fresh hc).2.2.2
  refine ⟨W.settled, ⟨W.within.pending, W.within.callbacks, fun _ _ {c'} e on => ?_⟩,
    Heap.accounts_empty, W.filesAll, c, rfl⟩
  cases e
  rw [debug, off] at on
  cases on

end Machine

/-! ## Two runs of a program -/

/-- What a program sees of a call. -/
structure Observation where
  call : Call
  outcome : Except Fault Answer
  /-- What the host reaches after the call. -/
  reached : ObjectId → Option Object

namespace Machine

/-- The machine after some calls. -/
def run (s : Machine) (calls : List Call) : Machine := (s.performAll (calls.map .call)).2

/-- What a host sees of some calls. -/
noncomputable def observe (s : Machine) : List Call → List Observation
  | [] => []
  | c :: rest =>
      let (record, s') := s.perform (.call c)
      ⟨c, record.outcome, s'.memory.heap.reached⟩ :: s'.observe rest

/-- A program only names handles that the host reaches when it names them. -/
def Disciplined (s : Machine) : List Call → Prop
  | [] => True
  | c :: rest => c.isMutator = true ∧ (∀ x ∈ c.operands, s.memory.heap.Reachable x) ∧
      (s.perform (.call c)).2.Disciplined rest

/-- Two runs of a program are kept in step, where collections are inserted into one of them. -/
theorem run_agree {calls : List Call} (S₁ : s₁.Serves) (S₂ : s₂.Serves)
    (A : s₁.memory.heap.Agree s₂.memory.heap)
    (disciplined : s₁.Disciplined (calls.filter (!·.isCollect))) :
    s₁.observe (calls.filter (!·.isCollect)) = (s₂.observe calls).filter (!·.call.isCollect) ∧
      (s₁.run (calls.filter (!·.isCollect))).Serves ∧ (s₂.run calls).Serves ∧
      (s₁.run (calls.filter (!·.isCollect))).memory.heap.Agree (s₂.run calls).memory.heap := by
  -- by induction on the calls of the second run; the first one pauses while a collection runs
  induction calls generalizing s₁ s₂ with
  | nil => exact ⟨rfl, S₁, S₂, A⟩
  | cons c rest ih =>
    cases collects : c.isCollect with
    | true =>
      have S₂' := S₂.perform (c := c) (by rw [collects, Bool.or_true])
      have sheds : s₂.memory.heap.Sheds (s₂.perform (.call c)).2.memory.heap := by
        cases c with
        | collect g => exact S₂.collect g
        | _ => cases collects
      simp only [List.filter_cons, collects, Bool.not_true, Bool.false_eq_true, if_false, observe]
        at disciplined ⊢
      exact ih S₁ S₂' (A.trans sheds.agree) disciplined
    | false =>
      simp only [List.filter_cons, collects, Bool.not_false, if_true, observe] at disciplined ⊢
      obtain ⟨mutator, reach, disciplined⟩ := disciplined
      have served : (c.isMutator || c.isCollect) = true := by rw [mutator, Bool.true_or]
      obtain ⟨outcome, agree⟩ := S₁.perform_agree S₂ A mutator reach
      obtain ⟨observed, rest⟩ := ih (S₁.perform served) (S₂.perform served) agree disciplined
      refine ⟨?_, rest⟩
      rw [observed, outcome, agree.reached]

/-- Collections are transparent. Two machines start on empty heaps, under settings of any kind that
do not keep garbage. The same program runs on both, with collections inserted into the second run.
Each call of it has the same outcome in both runs, and what the host reaches after it is the same;
and after full collections at the end, both heaps are the same as a whole. -/
theorem collections_transparent (settings₁ settings₂ : Settings)
    (start₁ : Machine.start (some settings₁) = .ok s₁)
    (start₂ : Machine.start (some settings₂) = .ok s₂)
    (off₁ : settings₁.debug.has .saveAll = false) (off₂ : settings₂.debug.has .saveAll = false)
    (program calls : List Call) (inserted : calls.filter (!·.isCollect) = program)
    (disciplined : s₁.Disciplined program) :
    s₁.observe program = (s₂.observe calls).filter (!·.call.isCollect) ∧
      ((s₁.run program).perform (.call (.collect 2))).2.memory.heap.Same
        ((s₂.run calls).perform (.call (.collect 2))).2.memory.heap := by
  subst inserted
  have S₁ := serves_of_start start₁ off₁
  have S₂ := serves_of_start start₂ off₂
  -- both runs start on the empty heap
  have heap {settings : Settings} {s : Machine} (start : Machine.start (some settings) = .ok s) :
      s.memory.heap = {} := by
    obtain ⟨c, -, run⟩ := Heap.exists_of_bind start
    cases run
    rfl
  have A : s₁.memory.heap.Agree s₂.memory.heap := by
    rw [heap start₁, heap start₂]
    exact (Heap.Sheds.refl _).agree
  obtain ⟨observed, T₁, T₂, agree⟩ := run_agree S₁ S₂ A disciplined
  exact ⟨observed, T₁.collect_same T₂ agree⟩

/-- A container that refers to itself is let go of, and an atom comes after it. -/
def litter : List Call :=
  [.allocate .container "node", .allocate .container "node", .addEdge (.id 1) (.id 2),
    .addEdge (.id 2) (.id 2), .release (.id 2), .removeEdge (.id 1) (.id 2),
    .allocate .atom "leaf"]

/-- The machine that a collector with the given settings starts on. -/
def fresh (settings : Settings) : Machine :=
  match Machine.start (some settings) with
  | .ok s => s
  | .error _ => {}

theorem disciplined_litter : (fresh { enabled := false }).Disciplined litter := by
  have root {h : Heap} {x : ObjectId} (rooted : (h.get? x).any (0 < ·.rootCount) = true) :
      h.Reachable x := by
    obtain ⟨o, ho, pos⟩ := (Option.any_eq_true _ _).mp rooted
    exact .root ⟨o, ho, of_decide_eq_true pos⟩
  simp only [Disciplined, litter, Call.isMutator, Call.operands, Operand.resolve,
    List.forall_mem_cons, List.not_mem_nil, false_implies, implies_true, and_true, true_and]
  refine ⟨⟨root ?_, root ?_⟩, ⟨root ?_, root ?_⟩, root ?_, root ?_, .step (x := 1) (root ?_) ?_⟩
  all_goals decide +kernel

/-- The container stays in the run in which nothing is collected. It is freed in the other run, in
which passes are asked for after each call and allocations start some as well. -/
theorem collections_transparent_litter :
    (fresh { enabled := false }).observe litter =
        ((fresh { thresholds := #v[2, 1, 1] }).observe
          (litter.flatMap fun c => [c, .collect 2])).filter (!·.call.isCollect) ∧
      ((fresh { enabled := false }).run litter).memory.heap.toList.map (·.id) = [1, 2, 3] ∧
      ((fresh { thresholds := #v[2, 1, 1] }).run
        (litter.flatMap fun c => [c, .collect 2])).memory.heap.toList.map (·.id) = [1, 3] :=
  have transparent := collections_transparent { enabled := false } { thresholds := #v[2, 1, 1] }
    (by rfl) (by rfl) rfl rfl litter (litter.flatMap fun c => [c, .collect 2]) rfl
    disciplined_litter
  ⟨transparent.1, by decide +kernel, by decide +kernel⟩

end Machine

end Reclaim
