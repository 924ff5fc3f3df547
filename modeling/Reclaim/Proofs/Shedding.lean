import Reclaim.Proofs.Nesting

/-!
# Shedding garbage

Without hooks, what the library does on its own account (frees, cascades and passes) only sheds
garbage: the objects that the host reaches keep their shape, nothing else comes up, and no root
reference changes (`Heap.Sheds`). A step that the library takes is of this kind
(`Machine.Step.sheds`), so a pass or a release as a whole is (`Machine.At.sheds`).

Two heaps agree if what the host reaches in one is the same in the other (`Heap.Agree`). This is an
equivalence, and it does not see what is shed.
-/

set_option autoImplicit false

namespace Reclaim

open Machine

/-- Operations that install no hooks. -/
def Op.isPlainOp : Op → Bool
  | .call _ => true
  | .ask _ => true
  | _ => false

/-- What may happen in a run without hooks. -/
def Scope.plain (allows : Op → Prop) (saving : Prop)
    (plain : ∀ op, allows op → op.isPlainOp = true)
    (flags : ∀ f, allows (.call (.setDebug f)) → f.has .saveAll = true → saving) : Scope where
  names := ∅
  hooks _ := False
  allows := allows
  may deed := deed = .collect ∨ ∃ op, allows op
  saving := saving
  passes := True
  sweeps _ := True
  host {op} allowed := by
    have := plain op allowed
    cases op <;> first | rfl | cases this
  deeds allowed _ := .inr ⟨_, allowed⟩
  steps := False.elim
  finalizer allowed := Bool.noConfusion (plain _ allowed)
  callback allowed := Bool.noConfusion (plain _ allowed)
  flags := fun {f} => flags f
  swept _ _ := trivial

/-- Nobody does anything but the library, which frees what it finds. -/
def Scope.idle : Scope := .plain (fun _ => False) False (fun _ => False.elim) fun _ => False.elim

/-- Nobody but the library takes steps, no hooks are run and no garbage is kept. -/
structure Scope.Idle (sc : Scope) : Prop where
  inactive : ∀ deed, sc.may deed → deed = .collect
  discards : ¬ sc.saving
  unhooked : ∀ script, ¬ sc.hooks script

theorem Scope.idle_isIdle : Scope.idle.Idle where
  inactive _ may := may.resolve_right (·.choose_spec)
  discards := id
  unhooked _ := id

theorem Scope.Idle.calm {sc : Scope} (I : sc.Idle) : sc.calm.Idle :=
  ⟨I.inactive, I.discards, I.unhooked⟩

namespace Object

/-- The object without its count and what the library notes on it. -/
def shape (o : Object) : Object :=
  { o with strongCount := 0, generation := 0, freeing := false, color := .white, gcRefs := 0 }

end Object

namespace Heap

variable {h h' h'' h₁ h₂ h₃ : Heap} {x y : ObjectId} {o p : Object}

/-- The shape of the object with a handle, if it is live. -/
def shape? (h : Heap) (x : ObjectId) : Option Object := (h.get? x).map Object.shape

theorem shape?_of_get? (hx : h.get? x = some o) : h.shape? x = some o.shape := by
  rw [shape?, hx, Option.map_some]

theorem exists_of_shape? (hx : h.shape? x = some p) : ∃ o, h.get? x = some o ∧ o.shape = p :=
  Option.map_eq_some_iff.mp hx

theorem refs_of_shape? (same : h'.shape? x = h.shape? x) : h'.refs x = h.refs x := by
  -- reference lists are part of shapes
  have factor (h : Heap) : h.refs x = (h.shape? x).elim [] (·.references) := by
    unfold refs shape?
    cases h.get? x <;> rfl
  rw [factor h', same, ← factor h]

theorem rooted_of_shape? (same : h'.shape? x = h.shape? x) (rooted : h.Rooted x) : h'.Rooted x := by
  obtain ⟨o, ho, pos⟩ := rooted
  rw [shape?_of_get? ho] at same
  obtain ⟨p, hp, e⟩ := exists_of_shape? same
  have root : p.rootCount = o.rootCount := congrArg (·.rootCount) e
  exact ⟨p, hp, root ▸ pos⟩

/-- Reachability leads from handle to handle, so it stays within any set that it does not leave. -/
theorem Reachable.within {S : ObjectId → Prop} (reach : h.Reachable x)
    (roots : ∀ y, h.Rooted y → S y) (edges : ∀ r y, S r → y ∈ h.refs r → S y) : S x := by
  induction reach with
  | root rooted => exact roots _ rooted
  | step _ hy ih => exact edges _ _ ih hy

theorem Balanced.live_of_reachable {L : Loose} (B : h.Balanced L) (reach : h.Reachable x) :
    ∃ o, h.get? x = some o := Heap.live_of_reachable B.closed reach

/-- Reachable objects of one heap are reachable in another one where they have the same shape. -/
theorem Reachable.transfer (same : ∀ x, h.Reachable x → h'.shape? x = h.shape? x)
    (reach : h.Reachable x) : h'.Reachable x := by
  induction reach with
  | root rooted => exact .root (rooted_of_shape? (same _ (.root rooted)) rooted)
  | step reach hy ih =>
    refine .step ih ?_
    rwa [refs_of_shape? (same _ reach)]

/-! ## Shedding -/

/-- What is reached stays as it is, nothing comes up, and kinds and root references do not
change. -/
structure Sheds (h h' : Heap) : Prop where
  nextId : h'.nextId = h.nextId
  kept : ∀ x, h.Reachable x → h'.shape? x = h.shape? x
  old : ∀ x p, h'.get? x = some p →
    ∃ o, h.get? x = some o ∧ p.kind = o.kind ∧ p.rootCount = o.rootCount

theorem Sheds.refl (h : Heap) : h.Sheds h :=
  ⟨rfl, fun _ _ => rfl, fun _ p hp => ⟨p, hp, rfl, rfl⟩⟩

theorem Sheds.trans (one : h.Sheds h') (two : h'.Sheds h'') : h.Sheds h'' where
  nextId := two.nextId.trans one.nextId
  kept x reach := (two.kept x (reach.transfer one.kept)).trans (one.kept x reach)
  old x p hp := by
    obtain ⟨q, hq, kind, root⟩ := two.old x p hp
    obtain ⟨o, ho, kind', root'⟩ := one.old x q hq
    exact ⟨o, ho, kind.trans kind', root.trans root'⟩

theorem Sheds.reachable (sheds : h.Sheds h') : h'.Reachable x ↔ h.Reachable x := by
  refine ⟨fun reach => reach.within (fun y rooted => ?_) fun r y reach hy => ?_,
    Reachable.transfer sheds.kept⟩
  -- a root of the later heap was one before, and what it reaches has kept its references
  · obtain ⟨p, hp, pos⟩ := rooted
    obtain ⟨o, ho, -, root⟩ := sheds.old y p hp
    exact .root ⟨o, ho, root ▸ pos⟩
  · rw [refs_of_shape? (sheds.kept r reach)] at hy
    exact .step reach hy

/-- A heap in which every object has its shape sheds nothing. -/
theorem sheds_of_shape? (nextId : h'.nextId = h.nextId) (same : ∀ x, h'.shape? x = h.shape? x) :
    h.Sheds h' where
  nextId := nextId
  kept x _ := same x
  old x p hp := by
    have e := same x
    rw [shape?_of_get? hp] at e
    obtain ⟨o, ho, e⟩ := exists_of_shape? e.symm
    exact ⟨o, ho, (congrArg (·.kind) e).symm, (congrArg (·.rootCount) e).symm⟩

/-- Unlinking an object that is not reached sheds it. -/
theorem sheds_unlink (hx : h.get? x = some o) (unreachable : ¬ h.Reachable x) :
    h.Sheds (h.put x o.clearReferences) where
  nextId := rfl
  kept y reach := by
    have ne : x ≠ y := by
      rintro rfl
      exact unreachable reach
    rw [shape?, shape?, get?_put, if_neg ne]
  old y p hp := by
    rw [get?_put] at hp
    split at hp
    · next e =>
      subst e
      cases hp
      exact ⟨o, hx, rfl, rfl⟩
    · exact ⟨p, hp, rfl, rfl⟩

theorem sheds_erase (unreachable : ¬ h.Reachable x) : h.Sheds (h.erase x) where
  nextId := rfl
  kept y reach := by
    have ne : x ≠ y := by
      rintro rfl
      exact unreachable reach
    rw [shape?, shape?, get?_erase, if_neg ne]
  old y p hp := by
    rw [get?_erase] at hp
    split at hp
    · cases hp
    · exact ⟨p, hp, rfl, rfl⟩

/-- An edit sheds garbage, unless the collector keeps garbage or a host does something. -/
theorem Edit.sheds_cases {sc : Scope} {L L' : Loose} (edit : Edit sc (L, h) (L', h')) :
    h.Sheds h' ∨ (sc.saving ∧ ∃ x, h.retain x = .ok h') ∨
      (sc.may .link ∧ ∃ x y, h.addEdge x y = .ok h') ∨
      ∃ deed, sc.may deed ∧ deed ∉ [Deed.link, .collect] := by
  cases edit with
  | mark unmarked => exact .inl (sheds_of_shape? unmarked.nextId (unmarked.map_view fun _ => rfl))
  | lose hx => exact .inl (sheds_of_shape? rfl (map_get?_put hx (by rfl)))
  | spare hx _ => exact .inl (sheds_of_shape? rfl (map_get?_put hx (by rfl)))
  | hold hx => exact .inl (sheds_of_shape? rfl (map_get?_put hx (by rfl)))
  | unlink hx unreachable _ => exact .inl (sheds_unlink hx unreachable)
  | save saving run => exact .inr (.inl ⟨saving, _, run⟩)
  | addEdge may run => exact .inr (.inr (.inl ⟨may, _, _, run⟩))
  | retain may _ | giveUpRoot may _ | cut may _ | setFinalizer may _ _ =>
    exact .inr (.inr (.inr ⟨_, may, by simp⟩))

/-! ## Agreement -/

/-- What the host reaches in one heap is the same in the other. -/
structure Agree (h₁ h₂ : Heap) : Prop where
  nextId : h₁.nextId = h₂.nextId
  left : ∀ x, h₁.Reachable x → h₂.shape? x = h₁.shape? x
  right : ∀ x, h₂.Reachable x → h₁.shape? x = h₂.shape? x

theorem Agree.symm (A : h₁.Agree h₂) : h₂.Agree h₁ := ⟨A.nextId.symm, A.right, A.left⟩

theorem Agree.reachable (A : h₁.Agree h₂) : h₁.Reachable x ↔ h₂.Reachable x :=
  ⟨.transfer A.left, .transfer A.right⟩

theorem Agree.trans (one : h₁.Agree h₂) (two : h₂.Agree h₃) : h₁.Agree h₃ where
  nextId := one.nextId.trans two.nextId
  left x reach := (two.left x (one.reachable.mp reach)).trans (one.left x reach)
  right x reach := (one.right x (two.reachable.mpr reach)).trans (two.right x reach)

theorem Sheds.agree (sheds : h.Sheds h') : h.Agree h' where
  nextId := sheds.nextId.symm
  left := sheds.kept
  right x reach := (sheds.kept x (sheds.reachable.mp reach)).symm

end Heap

namespace Machine

variable {sc : Scope} {L L' : Loose} {b : Bool} {Q : ObjectId → Prop} {s s' : Machine}

/-- A step sheds garbage, unless a finalizer is entered, the collector keeps garbage or a host does
something. -/
theorem Step.sheds_cases (step : Step sc (L, s) (L', s')) :
    s.memory.heap.Sheds s'.memory.heap ∨
      (∃ x o script, s.memory.heap.get? x = some o ∧ o.pendingFinalizer? = some script ∧
        s'.memory.heap = s.memory.heap.put x o.markFinalized) ∨
      (sc.saving ∧ ∃ x, s.memory.heap.retain x = .ok s'.memory.heap) ∨
      (sc.may .link ∧ ∃ x y, s.memory.heap.addEdge x y = .ok s'.memory.heap) ∨
      ∃ deed, sc.may deed ∧ deed ∉ [Deed.link, .collect] := by
  cases step with
  | aside memory _ _ =>
    rw [memory]
    exact .inl (.refl _)
  | note _ | collecting _ => exact .inl (.refl _)
  | edit edit =>
    rcases edit.sheds_cases with sheds | host
    · exact .inl sheds
    · exact .inr (.inr host)
  | finalize hx pending => exact .inr (.inl ⟨_, _, _, hx, pending, rfl⟩)
  | destroy hx _ root unreferenced run =>
    rw [Memory.exists_of_destroy hx run]
    exact .inl (Heap.sheds_erase
      (Heap.not_reachable_of_unreferenced (Heap.not_rooted hx root) unreferenced))
  | book g saves r _ _ _ _ =>
    exact .inl (Heap.sheds_of_shape? rfl (Memory.map_get?_book (fun _ _ => rfl) _ _ g saves r))
  | allocate _ _ may | configure may _ _ | disown may =>
    exact .inr (.inr (.inr (.inr ⟨_, may, by simp⟩)))

/-- Without hooks nothing but garbage is shed. -/
theorem Step.sheds (I : sc.Idle) (step : Step sc (L, s) (L', s')) (W : s.memory.Within sc) :
    s.memory.heap.Sheds s'.memory.heap := by
  rcases step.sheds_cases with sheds | ⟨x, o, script, hx, pending, -⟩ | ⟨saving, -⟩ | ⟨may, -⟩ |
    ⟨deed, may, other⟩
  · exact sheds
  -- there are no hooks to be entered
  · exact absurd (W.pending hx pending).2 (I.unhooked _)
  · exact absurd saving I.discards
  · cases I.inactive _ may
  · exact absurd (I.inactive _ may ▸ List.mem_of_mem_tail List.mem_cons_self) other

theorem Steps.sheds {a b : Loose × Machine} (I : sc.Idle) (steps : Steps sc a b)
    (W : a.2.memory.Within sc) :
    a.2.memory.heap.Sheds b.2.memory.heap ∧ b.2.memory.Within sc := by
  induction steps with
  | refl => exact ⟨.refl _, W⟩
  | tail _ step ih => exact ⟨ih.1.trans (step.sheds I ih.2), step.within ih.2⟩

theorem At.sheds (A : At .idle b L Q s) (steps : Steps .idle (L, s) (L', s')) :
    s.memory.heap.Sheds s'.memory.heap :=
  (Steps.sheds Scope.idle_isIdle steps A.sound.within).1

end Machine

end Reclaim
