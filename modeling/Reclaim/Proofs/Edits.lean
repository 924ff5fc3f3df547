import Reclaim.Heap

/-!
# Edits of a heap

Heaps are determined by the objects they give out (`Heap.ext_get?`), so edits of one object compose
and cancel as edits of its fields do. The operations of a host are such edits: an operation that is
not refused has found the objects it names and has replaced them, as the `exists_of_` lemmas say.
-/

set_option autoImplicit false

namespace Reclaim

namespace Heap

variable {h h' : Heap} {x y : ObjectId} {o : Object}

/-! ## Heaps by their objects -/

/-- Heaps are equal if they give out the same objects and the same numbers. -/
theorem ext_get? (objects : ∀ x, h.get? x = h'.get? x) (nextId : h.nextId = h'.nextId)
    (freed : h.freed = h'.freed) : h = h' := by
  obtain ⟨table, n, f⟩ := h
  obtain ⟨table', n', f'⟩ := h'
  obtain rfl : n = n' := nextId
  obtain rfl : f = f' := freed
  have same : table = table' := Std.ExtTreeMap.ext_getElem? fun x => objects x
  rw [same]

theorem modify_eq_put (hx : h.get? x = some o) (f : Object → Object) :
    h.modify x f = h.put x (f o) := by
  refine ext_get? (fun y => ?_) rfl rfl
  rw [get?_modify, get?_put]
  split
  · next e => rw [← e, hx]; rfl
  · rfl

theorem put_put (h : Heap) (x : ObjectId) (o o' : Object) : (h.put x o).put x o' = h.put x o' := by
  refine ext_get? (fun y => ?_) rfl rfl
  simp only [get?_put]
  split <;> rfl

theorem put_self (hx : h.get? x = some o) : h.put x o = h := by
  refine ext_get? (fun y => ?_) rfl rfl
  rw [get?_put]
  split
  · next e => rw [← e, hx]
  · rfl

/-- An edit of one object that does not change a view of it does not change that view of any. -/
theorem map_get?_put {α : Type} {view : Object → α} {o' : Object} (hx : h.get? x = some o)
    (same : view o' = view o) (y : ObjectId) :
    ((h.put x o').get? y).map view = (h.get? y).map view := by
  rw [get?_put]
  split
  · next e => rw [← e, hx, Option.map_some, Option.map_some, same]
  · rfl

theorem map_get?_modify {α : Type} {view : Object → α} {f : Object → Object}
    (same : ∀ o, view (f o) = view o) (x y : ObjectId) :
    ((h.modify x f).get? y).map view = (h.get? y).map view := by
  rw [get?_modify]
  split
  · cases h.get? y with
    | none => rfl
    | some o => exact congrArg some (same o)
  · rfl

theorem size_put (hx : h.get? x = some o) (o' : Object) : (h.put x o').size = h.size := by
  have mem : x ∈ h.objects := by
    rw [Std.ExtTreeMap.mem_iff_isSome_getElem?]
    exact Option.isSome_iff_exists.mpr ⟨o, hx⟩
  show (h.objects.insert x o').size = h.objects.size
  rw [Std.ExtTreeMap.size_insert, if_pos (Std.ExtTreeMap.contains_iff_mem.mpr mem)]

theorem size_erase (hx : h.get? x = some o) : (h.erase x).size + 1 = h.size := by
  have mem : x ∈ h.objects := by
    rw [Std.ExtTreeMap.mem_iff_isSome_getElem?]
    exact Option.isSome_iff_exists.mpr ⟨o, hx⟩
  have positive : h.objects.size ≠ 0 := by
    intro empty
    rw [Std.ExtTreeMap.eq_empty_iff_size_eq_zero.mpr empty] at mem
    simp at mem
  show (h.objects.erase x).size + 1 = h.objects.size
  rw [Std.ExtTreeMap.size_erase, if_pos (Std.ExtTreeMap.contains_iff_mem.mpr mem)]
  omega

theorem size_pos (hx : h.get? x = some o) : 0 < h.size := by
  have := size_erase hx
  omega

/-! ## Operations that are not refused -/

theorem get_eq_ok_iff : h.get x = .ok o ↔ h.get? x = some o := by
  unfold get
  split <;> simp_all

theorem get_of_get? (hx : h.get? x = some o) : h.get x = .ok o := get_eq_ok_iff.mpr hx

theorem exists_of_bind {α β : Type} {a : Except Fault α} {f : α → Except Fault β} {b : β}
    (run : (a >>= f) = .ok b) : ∃ v, a = .ok v ∧ f v = .ok b := by
  cases a with
  | error e => cases run
  | ok v => exact ⟨v, rfl, run⟩

theorem exists_of_retain (run : h.retain x = .ok h') :
    ∃ o, h.get? x = some o ∧ h' = h.put x o.addRoot.incRef := by
  obtain ⟨o, ho, run⟩ := exists_of_bind run
  cases run
  exact ⟨o, get_eq_ok_iff.mp ho, rfl⟩

/-- The host may have one more reference to every live object. -/
theorem dead_of_retain {e : Fault} (run : h.retain x = .error e) :
    h.get? x = none ∧ e = .invalidReference x .unknown := by
  cases hx : h.get? x with
  | none =>
    simp only [retain, get, hx] at run
    cases run
    exact ⟨rfl, rfl⟩
  | some o =>
    simp only [retain, get_of_get? hx] at run
    cases run

theorem exists_of_giveUpRoot (run : h.giveUpRoot x = .ok h') :
    ∃ o n, h.get? x = some o ∧ o.rootCount = n + 1 ∧ h' = h.put x { o with rootCount := n } := by
  obtain ⟨o, ho, run⟩ := exists_of_bind run
  obtain ⟨o', ho', run⟩ := exists_of_bind run
  cases run
  unfold Object.removeRoot at ho'
  split at ho'
  · cases ho'
  · next n hn =>
    cases ho'
    exact ⟨o, n, get_eq_ok_iff.mp ho, hn, rfl⟩

theorem exists_of_addEdge (run : h.addEdge x y = .ok h') :
    ∃ o p, h.get? x = some o ∧ h.get? y = some p ∧ o.kind = .container ∧
      h' = (h.put x (o.appendReference y)).modify y Object.incRef := by
  obtain ⟨o, ho, run⟩ := exists_of_bind run
  obtain ⟨p, hp, run⟩ := exists_of_bind run
  split at run
  · next kind =>
    cases run
    refine ⟨o, p, get_eq_ok_iff.mp ho, get_eq_ok_iff.mp hp, ?_, rfl⟩
    simpa [Object.isContainer] using kind
  · cases run

theorem exists_of_cut (run : h.cut x y = .ok h') :
    ∃ o, h.get? x = some o ∧ y ∈ o.references ∧
      h' = h.put x { o with references := o.references.erase y } := by
  obtain ⟨o, ho, run⟩ := exists_of_bind run
  unfold Object.removeReference? at run
  split at run
  · next o' ho' =>
    split at ho'
    · next mem =>
      cases ho'
      cases run
      exact ⟨o, get_eq_ok_iff.mp ho, mem, rfl⟩
    · cases ho'
  · cases run

theorem exists_of_setFinalizer {finalizer : Option Script}
    (run : h.setFinalizer x finalizer = .ok h') :
    ∃ o, h.get? x = some o ∧ h' = h.put x { o with finalizer } := by
  obtain ⟨o, ho, run⟩ := exists_of_bind run
  cases run
  exact ⟨o, get_eq_ok_iff.mp ho, rfl⟩

theorem decRef_of_get? {n : Nat} (hx : h.get? x = some o) (hn : o.strongCount = n + 1) :
    h.decRef x = .ok (n, h.put x { o with strongCount := n }) := by
  simp only [decRef, get_of_get? hx, bind, Except.bind, Object.decRef, hn]
  rfl

theorem giveUpRoot_of_get? {n : Nat} (hx : h.get? x = some o) (hn : o.rootCount = n + 1) :
    h.giveUpRoot x = .ok (h.put x { o with rootCount := n }) := by
  simp only [giveUpRoot, get_of_get? hx, bind, Except.bind, Object.removeRoot, hn]
  rfl

theorem setFreeing_of_get? (hx : h.get? x = some o) (value : Bool) :
    h.setFreeing x value = .ok (h.put x { o with freeing := value }) := by
  simp only [setFreeing, get_of_get? hx, bind, Except.bind]
  rfl

end Heap

end Reclaim
