import Reclaim.Proofs.PartialCollection

/-!
# The second analysis

A collection divides its members once more after their finalizers have run, but only if there were
any. Leaving the second division out otherwise is sound: it would be made among the unreachable
members alone, and these account for all references to each other, as the members did before
(`Analysis.Parted.enclosed`). So it would find that nothing is held and leave every external count
where the first one had put it (`Cycles.divide_again`), and a collection that always divides twice
takes the same course (`Cycles.collect_eq_rechecking`).
-/

set_option autoImplicit false

namespace Reclaim

open Machine

namespace Analysis

variable {h h' : Heap} {members reachable unreachable : List ObjectId} {x : ObjectId} {o : Object}

/-- Members that are not held have no external references, neither among all members nor among
themselves. -/
theorem Parted.inEdgesFrom_eq (P : Parted h members reachable unreachable) (C : h.Covered)
    (nodup : members.Nodup) (hx : x ∈ unreachable) (ho : h.get? x = some o) :
    h.inEdgesFrom members x = o.strongCount ∧ h.inEdgesFrom unreachable x = o.strongCount := by
  obtain ⟨-, strong, all, inside⟩ := P.enclosed C nodup hx ho
  have own := Heap.inEdges_eq_inEdgesFrom (P.sub_unreachable.nodup nodup) inside
  exact ⟨all.trans strong.symm, own.symm.trans strong.symm⟩

/-- Members that are not held among all members are not held among themselves either. -/
theorem Parted.not_held_again (P : Parted h members reachable unreachable) (C : h.Covered)
    (nodup : members.Nodup) (x : ObjectId) : ¬ Held h unreachable x := by
  intro held
  induction held with
  | outside mem ho external =>
    have own := (P.inEdgesFrom_eq C nodup mem ho).2
    omega
  | step _ _ _ ih => exact ih

variable {c : ObjectId → Color}

theorem refs_paint (R : h.Rewrites (paint h members c) h') (x : ObjectId) : h'.refs x = h.refs x :=
  R.refs (fun x o => by unfold paint; split <;> rfl) x

/-- The object that has been painted, and what painting does not change of it. -/
theorem exists_of_paint (R : h.Rewrites (paint h members c) h') (hx : h'.get? x = some o) :
    ∃ p, h.get? x = some p ∧ o = paint h members c x p ∧ o.unmarked = p.unmarked := by
  rw [R.objects, Option.map_eq_some_iff] at hx
  obtain ⟨p, hp, rfl⟩ := hx
  exact ⟨p, hp, rfl, unmarked_paint h members c x p⟩

theorem covered_paint (R : h.Rewrites (paint h members c) h') (C : h.Covered) : h'.Covered where
  count {x o} hx := by
    obtain ⟨p, hp, -, same⟩ := exists_of_paint R hx
    have strong : o.strongCount = p.strongCount := congrArg (·.strongCount) same
    have root : o.rootCount = p.rootCount := congrArg (·.rootCount) same
    rw [Heap.inEdges_congr (refs_paint R), strong, root]
    exact C.count hp
  closed {x o y} hx hy := by
    obtain ⟨p, hp, -, same⟩ := exists_of_paint R hx
    have references : o.references = p.references := congrArg (·.references) same
    obtain ⟨q, hq⟩ := C.closed hp (references ▸ hy)
    exact ⟨_, R.get? hq⟩

/-- The analysis does not change what is held. -/
theorem held_of_paint {xs : List ObjectId} (R : h.Rewrites (paint h members c) h')
    (held : Held h' xs x) : Held h xs x := by
  induction held with
  | @outside x o mem ho external =>
    obtain ⟨p, hp, -, same⟩ := exists_of_paint R ho
    have strong : o.strongCount = p.strongCount := congrArg (·.strongCount) same
    rw [Heap.inEdgesFrom_congr (refs_paint R), strong] at external
    exact .outside mem hp external
  | step _ hy mem ih => exact ih.step (refs_paint R _ ▸ hy) mem

/-- Painting the members that are not held among themselves paints them as they have been painted
among all members. -/
theorem Parted.paint_again (P : Parted h members reachable unreachable) (C : h.Covered)
    (nodup : members.Nodup) (R : h.Rewrites (paint h members c) h') (hx : h'.get? x = some o) :
    paint h' unreachable c x o = o := by
  obtain ⟨p, hp, rfl, -⟩ := exists_of_paint R hx
  by_cases mem : x ∈ unreachable
  · have among : x ∈ members := P.sub_unreachable.subset mem
    obtain ⟨first, again⟩ := P.inEdgesFrom_eq C nodup mem hp
    rw [paint, if_pos mem, Heap.inEdgesFrom_congr (refs_paint R)]
    simp [paint, among, first, again]
  · rw [paint, if_neg mem]

end Analysis

namespace Cycles

variable {s s₁ : Machine} {fin : Finalization} {options : PassOptions}
  {members reachable unreachable xs : List ObjectId} {h' : Heap}

/-- Dividing the members that are not held once more would find none of them held, and would change
nothing at all. -/
theorem divide_again (C : s.memory.heap.Covered) (nodup : members.Nodup)
    (live : ∀ x ∈ members, ∃ o, s.memory.heap.get? x = some o)
    (P : Analysis.Parted s.memory.heap members reachable unreachable)
    (R : s.memory.heap.Rewrites (Analysis.paint s.memory.heap members fun _ => .white) h') :
    divide unreachable (s.withHeap h') = .ok ([], unreachable) (s.withHeap h') := by
  have distinct := P.sub_unreachable.nodup nodup
  have live' (x : ObjectId) (hx : x ∈ unreachable) : ∃ o, h'.get? x = some o := by
    obtain ⟨o, ho⟩ := live x (P.sub_unreachable.subset hx)
    exact ⟨_, R.get? ho⟩
  obtain ⟨held, unheld, h'', run, R', P'⟩ :=
    divide_paints (s := s.withHeap h') (Analysis.covered_paint R C) distinct live'
  rw [withHeap_heap] at R' P'
  rw [withHeap_withHeap] at run
  -- nothing is held, so the second division leaves all of them where they are
  have undivided := Analysis.parted_of_unheld fun x held =>
    P.not_held_again C nodup x (Analysis.held_of_paint R held)
  obtain rfl := (P'.reachable_eq distinct).trans (undivided.reachable_eq distinct).symm
  obtain rfl := (P'.unreachable_eq distinct).trans (undivided.unreachable_eq distinct).symm
  have same : h'' = h' := by
    refine Heap.ext_get? (fun x => ?_) R'.nextId R'.freed
    rw [R'.objects]
    cases hx : h'.get? x with
    | none => rfl
    | some o => exact congrArg some (P.paint_again C nodup R hx)
  rw [run, same]

/-! ## Collections that check again -/

/-- Where a second division would change nothing, it does not matter if it is made without a
finalizer having run. -/
theorem reclaimWith_eq (live : ∀ x ∈ unreachable, s.memory.heap.contains x = true)
    (again : divide unreachable s = .ok ([], unreachable) s) :
    reclaimWith id fin options unreachable s =
      reclaimWith (fun _ => true) fin options unreachable s := by
  cases run : finalizeAll fin unreachable s with
  | error e s₁ => simp only [reclaimWith, Act.bind_apply, run]
  | ok ran s₁ =>
    cases ran with
    | true => simp only [reclaimWith, Act.bind_apply, run, id]
    | false =>
      obtain rfl := eq_of_finalizeAll run
      have all : unreachable.filter (s₁.memory.heap.contains ·) = unreachable :=
        List.filter_eq_self.mpr live
      simp only [reclaimWith, Act.bind_apply, Act.heap_apply, run, all]
      cases empty : unreachable.isEmpty with
      | true => rfl
      | false =>
        simp only [id, Bool.false_and, Bool.not_false, Bool.and_self, Bool.false_eq_true, if_false,
          if_true, Act.bind_apply, Act.pure_apply, again]

/-- Leaving the second analysis out is sound. When every reference is counted, the members that a
collection finds unreachable first would be found unreachable again, all of them and without a
fault, and nothing would be changed by that; if none of them has a pending finalizer, that is the
state that the second analysis would be made in. A collection that always analyses twice therefore
ends with the same result and in the same state. -/
theorem collect_eq_rechecking (C : s.memory.heap.Covered) (nodup : xs.Nodup) :
    ∃ reachable unreachable s₁,
      divide (Cycles.members s.memory.heap xs) s = .ok (reachable, unreachable) s₁ ∧
      divide unreachable s₁ = .ok ([], unreachable) s₁ ∧
      ((∀ x ∈ unreachable, ∀ o, s.memory.heap.get? x = some o → o.pendingFinalizer? = none) →
        ∀ fin, finalizeAll fin unreachable s₁ = .ok false s₁) ∧
      ∀ fin g options,
        collect fin g xs options s = collectWith (fun _ => true) fin g xs options s := by
  have nodup : (Cycles.members s.memory.heap xs).Nodup := nodup.filter _
  have live (x : ObjectId) (hx : x ∈ Cycles.members s.memory.heap xs) :
      ∃ o, s.memory.heap.get? x = some o := live_of_mem_members hx
  obtain ⟨reachable, unreachable, h', run, R, P⟩ := divide_paints C nodup live
  have again := divide_again C nodup live P R
  refine ⟨reachable, unreachable, _, run, again, fun quiet fin => ?_, fun fin g options => ?_⟩
  · -- the first division does not touch finalizers
    refine finalizeAll_of_none fun x hx o ho => ?_
    obtain ⟨p, hp, -, same⟩ := Analysis.exists_of_paint R ho
    show o.unmarked.pendingFinalizer? = none
    rw [same]
    exact quiet x hx p hp
  · have marked (x : ObjectId) (hx : x ∈ unreachable) : h'.contains x = true := by
      obtain ⟨o, ho⟩ := live x (P.sub_unreachable.subset hx)
      exact contains_iff.mpr ⟨_, R.get? ho⟩
    have deal : reclaimWith id fin options unreachable (s.withHeap h') =
        reclaimWith (fun _ => true) fin options unreachable (s.withHeap h') :=
      reclaimWith_eq marked again
    simp only [collect, collectWith, Act.bind_apply, Act.heap_apply, run]
    cases unreachable.isEmpty with
    | true => rfl
    | false => simp only [Bool.false_eq_true, if_false, Act.bind_apply, deal]

theorem collect_eq_rechecking_adrift :
    ∃ s₁, divide (Cycles.members adrift.memory.heap [1, 3, 4, 9]) adrift = .ok ([3, 4], [1]) s₁ ∧
      divide [1] s₁ = .ok ([], [1]) s₁ ∧ (∀ fin, finalizeAll fin [1] s₁ = .ok false s₁) ∧
      ∀ fin g options, collect fin g [1, 3, 4, 9] options adrift =
        collectWith (fun _ => true) fin g [1, 3, 4, 9] options adrift := by
  obtain ⟨reachable, unreachable, s₁, run, again, quiet, same⟩ :=
    @collect_eq_rechecking adrift [1, 3, 4, 9] settled_adrift.balanced.covered (by decide)
  have facts : (match divide (Cycles.members adrift.memory.heap [1, 3, 4, 9]) adrift with
      | .ok parts _ => parts
      | .error _ _ => ([], [])) = ([3, 4], [1]) := by decide +kernel
  rw [run] at facts
  obtain ⟨rfl, rfl⟩ := Prod.mk.inj facts
  exact ⟨s₁, run, again, quiet fun x _ => unhooked_adrift x, same⟩

end Cycles

end Reclaim
