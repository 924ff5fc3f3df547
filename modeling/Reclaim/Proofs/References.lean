import Mathlib.Algebra.GroupWithZero.Nat
import Mathlib.Algebra.Order.BigOperators.Group.Finset
import Reclaim.Proofs.Edits

/-!
# References between objects

The incoming references of an object, counted over the reference lists of the live objects, and the
objects that references lead to from those that the host holds, or from outside of some members
(`Heap.Supported`). A single edit changes the count by
the references of the edited object only (`Heap.inEdges_change`); a set that no reference enters and
that holds no root is not reachable (`Heap.not_reachable_of_closed`).
-/

set_option autoImplicit false

namespace Reclaim

namespace Heap

variable {h h' : Heap} {x y : ObjectId} {o o' : Object}

/-- The references that a live object holds; other handles hold none. -/
def refs (h : Heap) (x : ObjectId) : List ObjectId := (h.get? x).elim [] (·.references)

theorem refs_of_get? (hx : h.get? x = some o) : h.refs x = o.references := by
  rw [refs, hx]
  rfl

theorem refs_of_none (hx : h.get? x = none) : h.refs x = [] := by
  rw [refs, hx]
  rfl

theorem isSome_of_mem_refs (hy : y ∈ h.refs x) : ∃ o, h.get? x = some o ∧ y ∈ o.references := by
  cases hx : h.get? x with
  | none =>
    rw [refs_of_none hx] at hy
    simp at hy
  | some o => exact ⟨o, rfl, by rwa [refs_of_get? hx] at hy⟩

theorem refs_put (h : Heap) (x : ObjectId) (o : Object) (y : ObjectId) :
    (h.put x o).refs y = if x = y then o.references else h.refs y := by
  unfold refs
  rw [get?_put]
  split <;> rfl

theorem refs_erase (h : Heap) (x y : ObjectId) :
    (h.erase x).refs y = if x = y then [] else h.refs y := by
  unfold refs
  rw [get?_erase]
  split <;> rfl

/-- The number of references to an object that live objects hold. -/
def inEdges (h : Heap) (x : ObjectId) : Nat := (h.toList.map (·.references.count x)).sum

/-- The handles of the live objects as a finite set. -/
def live (h : Heap) : Finset ObjectId := h.objects.keys.toFinset

theorem mem_live : x ∈ h.live ↔ ∃ o, h.get? x = some o := by
  rw [live, List.mem_toFinset, Std.ExtTreeMap.mem_keys, Std.ExtTreeMap.mem_iff_isSome_getElem?,
    Option.isSome_iff_exists]
  rfl

theorem live_congr {h' : Heap} (same : ∀ y, (h'.get? y).isSome = (h.get? y).isSome) :
    h'.live = h.live := by
  ext y
  rw [mem_live, mem_live, ← Option.isSome_iff_exists, ← Option.isSome_iff_exists, same]

/-- The references to an object, summed over any set that includes the live objects. -/
theorem inEdges_eq_sum {S : Finset ObjectId} (hS : ∀ r o, h.get? r = some o → r ∈ S)
    (x : ObjectId) : h.inEdges x = ∑ r ∈ S, (h.refs r).count x := by
  -- first over the live handles themselves, which the larger set only extends by zeros
  have keys : h.inEdges x = ∑ r ∈ h.live, (h.refs r).count x := by
    rw [live, List.sum_toFinset _ Std.ExtTreeMap.nodup_keys,
      ← Std.ExtTreeMap.map_fst_toList_eq_keys]
    unfold inEdges toList
    rw [List.map_map, List.map_map]
    congr 1
    apply List.map_congr_left
    intro p hp
    have hget : h.get? p.1 = some p.2 := Std.ExtTreeMap.mem_toList_iff_getElem?_eq_some.mp hp
    show p.2.references.count x = (h.refs p.1).count x
    rw [refs_of_get? hget]
  rw [keys]
  refine Finset.sum_subset ?_ ?_
  · intro r hr
    obtain ⟨o, ho⟩ := mem_live.mp hr
    exact hS r o ho
  -- a handle outside of the live ones holds no references
  · intro r _ hr
    have dead : h.get? r = none := by
      rw [mem_live] at hr
      exact Option.eq_none_iff_forall_not_mem.mpr fun o ho => hr ⟨o, ho⟩
    rw [refs_of_none dead, List.count_nil]

/-- Changing the references of one object changes the count of incoming references by theirs. -/
theorem inEdges_change (y : ObjectId) (same : ∀ r, r ≠ y → h'.refs r = h.refs r) (x : ObjectId) :
    h'.inEdges x + (h.refs y).count x = h.inEdges x + (h'.refs y).count x := by
  -- both counts are sums over the same handles, and differ at `y` only
  let S : Finset ObjectId := insert y (h.live ∪ h'.live)
  have hy : y ∈ S := Finset.mem_insert_self _ _
  have before := inEdges_eq_sum (h := h) (S := S) (fun r o hr =>
    Finset.mem_insert_of_mem (Finset.mem_union_left _ (mem_live.mpr ⟨o, hr⟩))) x
  have after := inEdges_eq_sum (h := h') (S := S) (fun r o hr =>
    Finset.mem_insert_of_mem (Finset.mem_union_right _ (mem_live.mpr ⟨o, hr⟩))) x
  rw [← Finset.add_sum_erase S _ hy] at before after
  have others : ∑ r ∈ S.erase y, (h'.refs r).count x = ∑ r ∈ S.erase y, (h.refs r).count x :=
    Finset.sum_congr rfl fun r hr => by rw [same r (Finset.ne_of_mem_erase hr)]
  omega

theorem inEdges_congr (same : ∀ r, h'.refs r = h.refs r) (x : ObjectId) :
    h'.inEdges x = h.inEdges x := by
  have := @inEdges_change h h' x (fun r _ => same r) x
  rw [same x] at this
  omega

theorem count_refs_le_inEdges (h : Heap) (r x : ObjectId) : (h.refs r).count x ≤ h.inEdges x := by
  cases hr : h.get? r with
  | none =>
    rw [refs_of_none hr]
    simp
  | some o =>
    -- compare with the heap without the holder
    have := @inEdges_change (h.erase r) h r
      (fun q hq => by rw [refs_erase, if_neg (Ne.symm hq)]) x
    rw [refs_erase, if_pos rfl, List.count_nil] at this
    omega

theorem not_mem_refs_of_inEdges_eq_zero (none : h.inEdges x = 0) (r : ObjectId) :
    x ∉ h.refs r := by
  have := count_refs_le_inEdges h r x
  rw [← List.count_eq_zero]
  omega

theorem inEdges_eq_zero (none : ∀ r, x ∉ h.refs r) : h.inEdges x = 0 := by
  rw [inEdges_eq_sum fun r o hr => mem_live.mpr ⟨o, hr⟩]
  exact Finset.sum_eq_zero fun r _ => List.count_eq_zero.mpr (none r)

/-- The number of references to an object that some handles hold. -/
def inEdgesFrom (h : Heap) (members : List ObjectId) (x : ObjectId) : Nat :=
  (members.map fun r => (h.refs r).count x).sum

variable {members : List ObjectId}

theorem inEdgesFrom_eq_sum (hm : members.Nodup) (x : ObjectId) :
    h.inEdgesFrom members x = ∑ r ∈ members.toFinset, (h.refs r).count x :=
  (List.sum_toFinset _ hm).symm

theorem inEdgesFrom_le_inEdges (hm : members.Nodup) (x : ObjectId) :
    h.inEdgesFrom members x ≤ h.inEdges x := by
  rw [inEdges_eq_sum (S := members.toFinset ∪ h.live)
      (fun r o hr => Finset.mem_union_right _ (mem_live.mpr ⟨o, hr⟩)), inEdgesFrom_eq_sum hm]
  exact Finset.sum_le_sum_of_subset Finset.subset_union_left

/-- If members account for all incoming references, only members hold them. -/
theorem mem_of_inEdges_le (hm : members.Nodup) (all : h.inEdges x ≤ h.inEdgesFrom members x)
    {r : ObjectId} (hr : x ∈ h.refs r) : r ∈ members := by
  by_contra outside
  -- a holder outside of the members would make one reference more than there are
  have counted := inEdgesFrom_le_inEdges (h := h) (List.nodup_cons.mpr ⟨outside, hm⟩) x
  have positive : 0 < (h.refs r).count x := List.count_pos_iff.mpr hr
  simp only [inEdgesFrom, List.map_cons, List.sum_cons] at all counted
  omega

/-- If only members refer to an object, they account for all its incoming references. -/
theorem inEdges_eq_inEdgesFrom (hm : members.Nodup) (only : ∀ r, x ∈ h.refs r → r ∈ members) :
    h.inEdges x = h.inEdgesFrom members x := by
  rw [inEdges_eq_sum (S := members.toFinset ∪ h.live)
      (fun r o hr => Finset.mem_union_right _ (mem_live.mpr ⟨o, hr⟩)), inEdgesFrom_eq_sum hm]
  refine (Finset.sum_subset Finset.subset_union_left fun r _ hr => ?_).symm
  exact List.count_eq_zero.mpr fun hx => hr (by simpa using only r hx)

/-! ## Reachability -/

/-- The host holds a reference to the object. -/
def Rooted (h : Heap) (x : ObjectId) : Prop := ∃ o, h.get? x = some o ∧ 0 < o.rootCount

/-- References lead from an object that the host holds to the object. -/
inductive Reachable (h : Heap) : ObjectId → Prop where
  | root {x : ObjectId} : h.Rooted x → Reachable h x
  | step {x y : ObjectId} : Reachable h x → y ∈ h.refs x → Reachable h y

/-- References between members lead to the object from a member that the host or an object outside
of the members holds. -/
inductive Supported (h : Heap) (members : List ObjectId) : ObjectId → Prop where
  | root {x : ObjectId} : x ∈ members → h.Rooted x → Supported h members x
  | outside {r x : ObjectId} : x ∈ members → r ∉ members → x ∈ h.refs r → Supported h members x
  | step {x y : ObjectId} : Supported h members x → y ∈ h.refs x → y ∈ members →
      Supported h members y

/-- Where references lead to live objects, what is reachable lives. -/
theorem live_of_reachable
    (closed : ∀ {x o y}, h.get? x = some o → y ∈ o.references → ∃ p, h.get? y = some p)
    (reach : h.Reachable x) : ∃ o, h.get? x = some o := by
  cases reach with
  | root rooted =>
    obtain ⟨o, ho, -⟩ := rooted
    exact ⟨o, ho⟩
  | step _ hy =>
    obtain ⟨o, ho, mem⟩ := isSome_of_mem_refs hy
    exact closed ho mem

theorem not_reachable_of_unreferenced (root : ¬ h.Rooted x) (none : h.inEdges x = 0) :
    ¬ h.Reachable x := by
  intro hx
  cases hx with
  | root hroot => exact root hroot
  | step _ hx => exact not_mem_refs_of_inEdges_eq_zero none _ hx

/-- A set that no reference enters from outside and that holds no root is not reachable. -/
theorem not_reachable_of_closed {S : ObjectId → Prop} (roots : ∀ x, S x → ¬ h.Rooted x)
    (closed : ∀ r x, S x → x ∈ h.refs r → S r) (hx : S x) : ¬ h.Reachable x := by
  intro reach
  induction reach with
  | root hroot => exact roots _ hx hroot
  | step _ hy ih => exact ih (closed _ _ hx hy)

end Heap

end Reclaim
