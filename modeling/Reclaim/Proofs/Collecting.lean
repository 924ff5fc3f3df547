import Reclaim.Proofs.Cascade
import Reclaim.Proofs.Marking

/-!
# Collecting in steps

The collection of cycles is a sequence of steps, and it takes a course that `Cycles.Course` records
(`Cycles.collect_course`): the members are divided, the finalizers of those that are not held run,
what they have left is divided again, and what is not held then is swept. What the analysis does not
find held from outside is sealed off: neither the host nor an object outside refers to it
(`Analysis.Parted.isolated`), so its members may be unlinked and taken out one after the other while
references between them are still loose. References that lead out of it are given back at the end.
-/

set_option autoImplicit false

namespace Reclaim

open Machine

variable {sc : Scope} {b : Bool} {n : Nat} {L L' : Loose} {Q : ObjectId → Prop} {s s' : Machine}
  {fin : Finalization}

namespace Heap

variable {h h' : Heap} {xs : List ObjectId} {x : ObjectId}

/-- No reference of the host and none of another object leads to one of these live objects. -/
structure Isolated (h : Heap) (xs : List ObjectId) : Prop where
  unrooted : ∀ x ∈ xs, ∃ o, h.get? x = some o ∧ o.rootCount = 0
  inside : ∀ x ∈ xs, ∀ r, x ∈ h.refs r → r ∈ xs

/-- Some objects have got one more root reference, and nothing else has changed but the scratch
fields of the analysis. -/
def Retains (h : Heap) (xs : List ObjectId) (h' : Heap) : Prop :=
  ∀ x, (h'.get? x).map Object.unmarked =
    (h.get? x).map fun o => (if x ∈ xs then o.addRoot.incRef else o).unmarked

theorem Unmarked.retains {h'' : Heap} (unmarked : h.Unmarked h') (retains : h'.Retains xs h'') :
    h.Retains xs h'' := fun x =>
  -- counts do not depend on the scratch fields
  (retains x).trans (unmarked.map_view (fun o => by split <;> rfl) x)

/-- Retaining as it looks without ages. -/
theorem Retains.map_bare (R : h.Retains xs h') (x : ObjectId) :
    (h'.get? x).map Object.bare =
      (h.get? x).map fun o => (if x ∈ xs then o.addRoot.incRef else o).bare := by
  have same := congrArg (Option.map Object.bare) (R x)
  rw [Option.map_map, Option.map_map] at same
  exact same

theorem Isolated.not_reachable (I : h.Isolated xs) (hx : x ∈ xs) : ¬ h.Reachable x := by
  refine not_reachable_of_closed (S := (· ∈ xs)) (fun y hy => ?_) (fun r y hy => I.inside y hy r) hx
  obtain ⟨o, ho, root⟩ := I.unrooted y hy
  exact not_rooted ho root

theorem Isolated.unmarked (I : h.Isolated xs) (unmarked : h.Unmarked h') : h'.Isolated xs where
  unrooted x hx := by
    obtain ⟨o, ho, root⟩ := I.unrooted x hx
    have same := unmarked.objects x
    rw [ho, Option.map_some, Option.map_eq_some_iff] at same
    obtain ⟨p, hp, e⟩ := same
    have rootCount : p.rootCount = o.rootCount := congrArg (·.rootCount) e
    exact ⟨p, hp, rootCount.trans root⟩
  inside x hx r hr := by
    obtain ⟨p, hp, mem⟩ := isSome_of_mem_refs hr
    have same := unmarked.objects r
    rw [hp, Option.map_some, eq_comm, Option.map_eq_some_iff] at same
    obtain ⟨o, ho, e⟩ := same
    have references : o.references = p.references := congrArg (·.references) e
    exact I.inside x hx r (by rwa [refs_of_get? ho, references])

end Heap

/-- References to a member that is not held come from members that are not held, and its count is
just as high. -/
theorem Analysis.Parted.enclosed {h : Heap} {members reachable unreachable : List ObjectId}
    {x : ObjectId} {o : Object} (P : Parted h members reachable unreachable) (C : h.Covered)
    (nodup : members.Nodup) (hx : x ∈ unreachable) (ho : h.get? x = some o) :
    o.rootCount = 0 ∧ o.strongCount = h.inEdges x ∧
      h.inEdgesFrom members x = h.inEdges x ∧ ∀ r, x ∈ h.refs r → r ∈ unreachable := by
  obtain ⟨mem, unheld⟩ := (P.mem_unreachable x).mp hx
  -- its count is used up by the members, which leaves nothing for the host or for anybody else
  have all : ¬ h.inEdgesFrom members x < o.strongCount := fun e => unheld (.outside mem ho e)
  have count := C.count ho
  have sub := Heap.inEdgesFrom_le_inEdges (h := h) nodup x
  refine ⟨by omega, by omega, by omega, fun r hr => ?_⟩
  refine (P.mem_unreachable r).mpr ⟨Heap.mem_of_inEdges_le nodup (by omega) hr, fun held => ?_⟩
  exact unheld (held.step hr mem)

/-- The members that are not held are isolated, and no loose reference leads to them. -/
theorem Analysis.Parted.isolated {h : Heap} {members reachable unreachable : List ObjectId}
    (P : Parted h members reachable unreachable) (B : h.Balanced L) (nodup : members.Nodup)
    (live : ∀ x ∈ members, ∃ o, h.get? x = some o) :
    h.Isolated unreachable ∧ ∀ x ∈ unreachable, L x = 0 := by
  have unheld {x : ObjectId} (hx : x ∈ unreachable) : ∃ o, h.get? x = some o ∧
      o.rootCount = 0 ∧ L x = 0 ∧ ∀ r, x ∈ h.refs r → r ∈ unreachable := by
    obtain ⟨o, ho⟩ := live x ((P.mem_unreachable x).mp hx).1
    obtain ⟨root, strong, -, inside⟩ := P.enclosed B.covered nodup hx ho
    have count := B.count ho
    exact ⟨o, ho, root, by omega, inside⟩
  refine ⟨⟨fun x hx => ?_, fun x hx => ?_⟩, fun x hx => ?_⟩
  · obtain ⟨o, ho, root, -⟩ := unheld hx
    exact ⟨o, ho, root⟩
  · obtain ⟨-, -, -, -, inside⟩ := unheld hx
    exact inside
  · obtain ⟨-, -, -, zero, -⟩ := unheld hx
    exact zero

/-- Isolated objects on which nothing is loose are not held from outside. -/
theorem Heap.Isolated.not_held {h : Heap} {xs : List ObjectId} {x : ObjectId} (I : h.Isolated xs)
    (B : h.Balanced L) (nodup : xs.Nodup) (zero : ∀ x ∈ xs, L x = 0) :
    ¬ Analysis.Held h xs x := by
  intro held
  induction held with
  | outside mem ho count =>
    obtain ⟨p, hp, root⟩ := I.unrooted _ mem
    rw [ho, Option.some.injEq] at hp
    subst hp
    -- its count is used up by the references that isolated objects hold
    have law := B.count ho
    have all := Heap.inEdges_eq_inEdgesFrom (h := h) nodup (I.inside _ mem)
    have none := zero _ mem
    omega
  | step _ _ _ ih => exact ih

namespace Cycles

variable {members xs ys : List ObjectId}

/-- The analysis writes scratch fields in steps. -/
theorem unmarked_leads {h' : Heap} (A : At sc b L Q s) (unmarked : s.memory.heap.Unmarked h') :
    Leads sc b L s L Q (s.withHeap h') := by
  refine A.edit (.mark unmarked) (fun x p hp f => ?_) (unmarked.map_view fun _ => rfl)
  have same := unmarked.objects x
  rw [hp, Option.map_some, eq_comm, Option.map_eq_some_iff] at same
  obtain ⟨o, ho, e⟩ := same
  have freeing : o.freeing = p.freeing := congrArg (·.freeing) e
  exact A.freeing x o ho (freeing.trans f)

/-- The division succeeds on live members whose references are counted. It leaves each of them white
and with its external count. -/
theorem divide_paints (C : s.memory.heap.Covered) (nodup : members.Nodup)
    (live : ∀ x ∈ members, ∃ o, s.memory.heap.get? x = some o) :
    ∃ reachable unreachable h', divide members s = .ok (reachable, unreachable) (s.withHeap h') ∧
      s.memory.heap.Rewrites (Analysis.paint s.memory.heap members fun _ => .white) h' ∧
      Analysis.Parted s.memory.heap members reachable unreachable := by
  obtain ⟨h', reachable, unreachable, parted, paints, P⟩ := Analysis.partition_paints live nodup
  -- no member counts less than the references that members hold on it
  have covered : Analysis.deficient? (Analysis.externalCounts s.memory.heap members) members =
      none := by
    refine Analysis.deficient?_eq_none fun x o ho => ?_
    have count := C.count ho
    have sub := Heap.inEdgesFrom_le_inEdges (h := s.memory.heap) nodup x
    omega
  refine ⟨reachable, unreachable, h', ?_, paints, P⟩
  simp only [divide, Act.bind_apply, Act.heap_apply, Act.setHeap_apply, covered, parted,
    withHeap_withHeap, Act.pure_apply]

/-- In balance the division is a step. -/
theorem divide_leads (A : At sc b L Q s) (nodup : members.Nodup)
    (live : ∀ x ∈ members, ∃ o, s.memory.heap.get? x = some o) :
    ∃ reachable unreachable h', divide members s = .ok (reachable, unreachable) (s.withHeap h') ∧
      Leads sc b L s L Q (s.withHeap h') ∧ s.memory.heap.Unmarked h' ∧
      Analysis.Parted s.memory.heap members reachable unreachable := by
  obtain ⟨reachable, unreachable, h', run, paints, P⟩ :=
    divide_paints A.sound.balanced.covered nodup live
  have unmarked := paints.unmarked (Analysis.unmarked_paint s.memory.heap members _)
  exact ⟨reachable, unreachable, h', run, unmarked_leads A unmarked, unmarked, P⟩

/-- Without pending finalizers none runs. -/
theorem finalizeAll_of_none
    (none : ∀ x ∈ xs, ∀ o, s.memory.heap.get? x = some o → o.pendingFinalizer? = none) :
    finalizeAll fin xs s = .ok false s := by
  induction xs with
  | nil => rfl
  | cons x xs ih =>
    have first : (s.memory.heap.get? x).any (·.hasPendingFinalizer) = false := by
      cases hx : s.memory.heap.get? x with
      | none => rfl
      | some o =>
        rw [Option.any_some, Object.hasPendingFinalizer, none x List.mem_cons_self o hx,
          Option.isSome_none]
    have rest := ih fun y hy => none y (List.mem_cons_of_mem x hy)
    simp only [finalizeAll, Act.bind_apply, Act.heap_apply, first, Bool.false_eq_true, if_false,
      rest]

/-- If no finalizer has run there was none, and nothing has changed. -/
theorem eq_of_finalizeAll (run : finalizeAll fin xs s = .ok false s') : s' = s := by
  induction xs with
  | nil =>
    cases run
    rfl
  | cons x xs ih =>
    cases pending : (s.memory.heap.get? x).any (·.hasPendingFinalizer) with
    | true =>
      -- once a finalizer has run the answer cannot be that none has
      simp only [finalizeAll, Act.bind_apply, Act.heap_apply, pending, if_true] at run
      split at run
      · split at run <;> cases run
      · cases run
    | false =>
      simp only [finalizeAll, Act.bind_apply, Act.heap_apply, pending, Bool.false_eq_true,
        if_false] at run
      exact ih run

/-- The finalizers of some objects run one after the other. If they can install none, none is left
on these objects. -/
theorem finalizeAll_leads (F : fin.Sound sc b n) (A : At sc b L Q s)
    (hn : s.memory.heap.unspent sc ≤ n) (xs : List ObjectId) :
    ∃ ran s', finalizeAll fin xs s = .ok ran s' ∧ Leads sc b L s L Q s' ∧
      (sc.Fixed → ∀ x ∈ xs, s'.memory.heap.pending? x = none) := by
  induction xs generalizing s with
  | nil => exact ⟨false, s, rfl, A.here, fun _ x hx => absurd hx List.not_mem_nil⟩
  | cons x xs ih =>
    by_cases pending : (s.memory.heap.get? x).any (·.hasPendingFinalizer) = true
    · obtain ⟨o, ho, hpending⟩ := (Option.any_eq_true _ _).mp pending
      -- the finalizer of the first object, which may change everything behind it
      obtain ⟨script, hscript⟩ := Option.isSome_iff_exists.mp hpending
      obtain ⟨s₁, run₁, leads₁, -, none₁⟩ := Release.runFinalizer_leads F A hn ho hscript
      obtain ⟨ran, s', run, leads, rest⟩ := ih leads₁.there (Nat.le_trans leads₁.unspent_le hn)
      refine ⟨true, s', ?_, leads₁.trans leads, fun fixed y hy => ?_⟩
      · simp only [finalizeAll, Act.bind_apply, Act.heap_apply, pending, if_true, run₁, run,
          Act.pure_apply]
      · rcases List.mem_cons.mp hy with rfl | hy
        · exact leads.conduct.follows.unpending fixed none₁
        · exact rest fixed y hy
    · obtain ⟨ran, s', run, leads, rest⟩ := ih A hn
      refine ⟨ran, s', ?_, leads, fun fixed y hy => ?_⟩
      · rw [← run]
        simp only [finalizeAll, Act.bind_apply, Act.heap_apply, if_neg pending]
      · rcases List.mem_cons.mp hy with rfl | hy
        · exact leads.conduct.follows.unpending fixed (Heap.pending?_eq_none pending)
        · exact rest fixed y hy

/-- Reports are posted and change nothing else. -/
theorem report_apply (verdict : String) (xs : List ObjectId) (s : Machine) :
    ∃ s', report verdict xs s = .ok () s' ∧ Aside s s' := by
  induction xs generalizing s with
  | nil => exact ⟨s, rfl, .refl s⟩
  | cons x xs ih =>
    cases hx : s.memory.heap.get? x with
    | none =>
      obtain ⟨s', run, aside⟩ := ih s
      refine ⟨s', ?_, aside⟩
      rw [← run]
      simp only [report, List.forM, Act.bind_apply, Act.heap_apply, hx, Act.pure_apply]
    | some o =>
      obtain ⟨s', run, aside⟩ := ih (s.post (.info s!"gc: {verdict} {o.label}"))
      refine ⟨s', ?_, aside.memory, aside.journal, aside.starved, aside.registered⟩
      rw [← run]
      simp only [report, List.forM, Act.bind_apply, Act.heap_apply, hx, Act.post_apply]

theorem reportIf_apply (log : Bool) (verdict : String) (xs : List ObjectId) (s : Machine) :
    ∃ s', (if log then report verdict xs else pure () : Act Unit) s = .ok () s' ∧ Aside s s' := by
  cases log with
  | true => exact report_apply verdict xs s
  | false => exact ⟨s, rfl, .refl s⟩

/-! ## The sweep -/

/-- The references taken out of the garbage that do not lead back to it. -/
theorem unlink_outgoing (h : Heap) (xs : List ObjectId) :
    (unlink h xs).2 = (xs.flatMap h.refs).filter (!(Analysis.index xs).contains ·) :=
  List.filter_flatMap.symm

/-- Once they are unlinked, nobody holds isolated objects any more, and they hold nothing. -/
theorem unlink_clears {h : Heap} (I : h.Isolated xs) {x : ObjectId} (hx : x ∈ xs) :
    ∃ o, (unlink h xs).1.get? x = some o ∧ o.references = [] ∧ o.rootCount = 0 ∧
      (unlink h xs).1.inEdges x = 0 := by
  have rewrites : h.Rewrites (fun x o => if x ∈ xs then o.clearReferences else o)
      (unlink h xs).1 :=
    Heap.rewrites_foldl_modify (f := Object.clearReferences) (fun _ => rfl) h xs
  obtain ⟨o, ho, root⟩ := I.unrooted x hx
  have cleared := rewrites.get? ho
  rw [if_pos hx] at cleared
  refine ⟨_, cleared, rfl, root, Heap.inEdges_eq_zero fun r mem => ?_⟩
  obtain ⟨p, hp, mem⟩ := Heap.isSome_of_mem_refs mem
  rw [rewrites.objects, Option.map_eq_some_iff] at hp
  obtain ⟨q, hq, rfl⟩ := hp
  -- the holders of an isolated object are isolated themselves, and have been unlinked
  by_cases hr : r ∈ xs
  · rw [if_pos hr] at mem
    exact absurd mem List.not_mem_nil
  · rw [if_neg hr, ← Heap.refs_of_get? hq] at mem
    exact hr (I.inside x hx r mem)

/-- Isolated objects are unlinked one after the other. -/
theorem unlinkAll_leads (A : At sc b L Q s) (I : s.memory.heap.Isolated xs)
    (swept : ∀ x ∈ xs, sc.sweeps x) (sub : ∀ y ∈ ys, y ∈ xs) (nodup : ys.Nodup) :
    Leads sc b L s (L.add (ys.flatMap s.memory.heap.refs)) Q
      (s.withHeap (ys.foldl (fun h y => h.modify y Object.clearReferences) s.memory.heap)) := by
  induction ys generalizing L s with
  | nil =>
    rw [List.flatMap_nil, Loose.add_nil]
    exact A.here
  | cons y ys ih =>
    obtain ⟨fresh, nodup⟩ := List.nodup_cons.mp nodup
    have hy := sub y List.mem_cons_self
    obtain ⟨o, ho, root⟩ := I.unrooted y hy
    have unlinked : Leads sc b L s (L.add o.references) Q
        (s.withHeap (s.memory.heap.put y o.clearReferences)) :=
      A.edit (.unlink ho (I.not_reachable hy) (.inr (swept y hy)))
        (A.freeing.put (A.freeing y o ho :) fun _ _ => id) (Heap.map_get?_put ho (by rfl))
    have refs (r : ObjectId) : (s.memory.heap.put y o.clearReferences).refs r =
        if y = r then [] else s.memory.heap.refs r := Heap.refs_put _ _ _ _
    -- with fewer references the others are isolated all the more
    have I' : (s.memory.heap.put y o.clearReferences).Isolated xs := by
      refine ⟨?_, ?_⟩
      · intro x hx
        rw [Heap.get?_put]
        split
        · exact ⟨_, rfl, root⟩
        · exact I.unrooted x hx
      · intro x hx r hr
        rw [refs] at hr
        split at hr
        · cases hr
        · exact I.inside x hx r hr
    -- no object is unlinked twice, so the others have the references they had
    have rest : ys.flatMap (s.memory.heap.put y o.clearReferences).refs =
        ys.flatMap s.memory.heap.refs := by
      apply List.flatMap_congr
      intro r hr
      have ne : y ≠ r := fun e => fresh (e ▸ hr)
      rw [refs, if_neg ne]
    have others := ih unlinked.there I' (fun r hr => sub r (List.mem_cons_of_mem y hr)) nodup
    rw [withHeap_heap, rest, ← Loose.add_append, withHeap_withHeap] at others
    rw [List.flatMap_cons, Heap.refs_of_get? ho, List.foldl_cons, Heap.modify_eq_put ho]
    exact unlinked.trans others

/-- Objects that nobody holds and that hold nothing are taken out one after the other. -/
theorem destroyAll_leads (log : Bool) (A : At sc b L Q s) (nodup : xs.Nodup)
    (dead : ∀ x ∈ xs, ∃ o, s.memory.heap.get? x = some o ∧ o.references = [] ∧ o.rootCount = 0 ∧
      s.memory.heap.inEdges x = 0)
    (unpending : sc.Fixed → ∀ x ∈ xs, s.memory.heap.pending? x = none) :
    ∃ s', (xs.forM fun id => do
        if log then
          report "collectable" [id]
        Release.destroy id : Act Unit) s = .ok () s' ∧
      Leads sc b L s (xs.foldl Loose.clear L) Q s' ∧
      ∀ x ∈ xs, s'.memory.heap.get? x = none := by
  induction xs generalizing L s with
  | nil => exact ⟨s, rfl, A.here, fun x hx => absurd hx List.not_mem_nil⟩
  | cons x xs ih =>
    obtain ⟨fresh, nodup⟩ := List.nodup_cons.mp nodup
    obtain ⟨o, ho, references, root, unreferenced⟩ := dead x List.mem_cons_self
    obtain ⟨s₁, run₁, aside⟩ := reportIf_apply log "collectable" [x] s
    have told := A.aside aside
    have memory₁ := aside.memory
    obtain ⟨s₂, run₂, leads₂, heap₂⟩ := Release.destroy_leads told.there
      (memory₁ ▸ ho) references root (memory₁ ▸ unreferenced) fun fixed => by
        have none := unpending fixed x List.mem_cons_self
        rwa [Heap.pending?, ho] at none
    have leads₂ : Leads sc b L s₁ (L.clear x) Q s₂ := leads₂.mono fun _ hQ => hQ.1
    have refs (r : ObjectId) : s₂.memory.heap.refs r = s.memory.heap.refs r := by
      rw [heap₂, memory₁, Heap.refs_erase]
      split
      · next e => rw [← e, Heap.refs_of_get? ho, references]
      · rfl
    -- the object held nothing, so the others are as unreferenced as before
    have dead₂ (y : ObjectId) (hy : y ∈ xs) : ∃ p, s₂.memory.heap.get? y = some p ∧
        p.references = [] ∧ p.rootCount = 0 ∧ s₂.memory.heap.inEdges y = 0 := by
      have ne : x ≠ y := fun e => fresh (e ▸ hy)
      rw [Heap.inEdges_congr refs, heap₂, memory₁, Heap.get?_erase, if_neg ne]
      exact dead y (List.mem_cons_of_mem x hy)
    obtain ⟨s', run, leads, gone⟩ := ih leads₂.there nodup dead₂ fun fixed y hy =>
      (told.trans leads₂).conduct.follows.unpending fixed
        (unpending fixed y (List.mem_cons_of_mem x hy))
    refine ⟨s', ?_, (told.trans leads₂).trans leads, ?_⟩
    · rw [← run]
      cases log with
      | true =>
        simp only [if_true] at run₁
        simp only [List.forM, Act.bind_apply, if_true, run₁, run₂]
      | false =>
        cases run₁
        simp only [List.forM, Act.bind_apply, Bool.false_eq_true, if_false, run₂]
    · intro y hy
      rcases List.mem_cons.mp hy with rfl | hy
      -- handles are not given out twice, so it stays dead while the others are taken out
      · have old := (told.there.sound.balanced.keyed (memory₁ ▸ ho)).2.2
        refine (Steps.later leads.steps).dead ?_ ?_
        · exact Nat.lt_of_lt_of_le old (Steps.later leads₂.steps).nextId
        · rw [heap₂, Heap.get?_erase, if_pos rfl]
      · exact gone y hy

/-- The references that led out of the garbage are given back one after the other. -/
theorem dropAll_leads (F : fin.Sound sc b n) (A : At sc b (L.add xs) Q s)
    (hn : s.memory.heap.unspent sc ≤ n) :
    ∃ s', xs.forM (Release.dropReference fin) s = .ok () s' ∧
      Leads sc b (L.add xs) s L Q s' := by
  induction xs generalizing s with
  | nil =>
    rw [Loose.add_nil] at A ⊢
    exact ⟨s, rfl, A.here⟩
  | cons x xs ih =>
    rw [Loose.add_cons] at A ⊢
    obtain ⟨s₁, run₁, leads₁⟩ := Release.dropReference_leads F A hn
    obtain ⟨s', run, leads⟩ := ih leads₁.there (Nat.le_trans leads₁.unspent_le hn)
    refine ⟨s', ?_, leads₁.trans leads⟩
    simp only [List.forM, Act.bind_apply, run₁, run]

/-- Clearing what is loose on the garbage leaves the references that lead out of it. -/
theorem clearAll_add {L : Loose} (zero : ∀ x ∈ xs, L x = 0) (refs : List ObjectId) :
    xs.foldl Loose.clear (L.add refs) = L.add (refs.filter (!(Analysis.index xs).contains ·)) := by
  have clear (L : Loose) (x : ObjectId) :
      xs.foldl Loose.clear L x = if x ∈ xs then 0 else L x := by
    clear zero
    induction xs generalizing L with
    | nil => simp
    | cons y xs ih =>
      rw [List.foldl_cons, ih]
      by_cases e : x = y
      · simp [e, Loose.clear_self]
      · simp [e, Loose.clear_of_ne]
  ext x
  have outside : (!(Analysis.index xs).contains x) = true ↔ x ∉ xs := by
    rw [Bool.not_eq_true', ← Bool.not_eq_true, Analysis.contains_index]
  rw [clear]
  split
  · next hx =>
    have none : x ∉ refs.filter (!(Analysis.index xs).contains ·) := fun mem =>
      outside.mp (List.mem_filter.mp mem).2 hx
    rw [Loose.add_apply, zero x hx, List.count_eq_zero.mpr none]
  · next hx =>
    have kept := List.count_filter (p := (!(Analysis.index xs).contains ·)) (l := refs)
      (outside.mpr hx)
    rw [Loose.add_apply, Loose.add_apply, kept]

/-- Garbage that passes keep is given a root reference, and nothing else changes. -/
theorem saveAll_leads (saving : sc.saving) (A : At sc b L Q s) (nodup : xs.Nodup)
    (live : ∀ x ∈ xs, ∃ o, s.memory.heap.get? x = some o) :
    ∃ s', (xs.forM fun id => Act.edit (·.retain id)) s = .ok () s' ∧ Leads sc b L s L Q s' ∧
      ∀ y, s'.memory.heap.get? y =
        if y ∈ xs then (s.memory.heap.get? y).map (·.addRoot.incRef) else s.memory.heap.get? y := by
  induction xs generalizing s with
  | nil => exact ⟨s, rfl, A.here, fun y => (if_neg List.not_mem_nil).symm⟩
  | cons x xs ih =>
    obtain ⟨fresh, nodup⟩ := List.nodup_cons.mp nodup
    obtain ⟨o, ho⟩ := live x List.mem_cons_self
    have retained : s.memory.heap.retain x = .ok (s.memory.heap.put x o.addRoot.incRef) := by
      unfold Heap.retain
      rw [Heap.get_of_get? ho]
      rfl
    have saved : Leads sc b L s L Q (s.withHeap (s.memory.heap.put x o.addRoot.incRef)) :=
      A.edit (.save saving retained) (A.freeing.put (A.freeing x o ho :) fun _ _ => id)
        (Heap.map_get?_put ho (by rfl))
    have run₁ : Act.edit (·.retain x) s =
        .ok () (s.withHeap (s.memory.heap.put x o.addRoot.incRef)) := Act.edit_of_ok retained
    obtain ⟨s', run, leads, objects⟩ := ih saved.there nodup fun y hy => by
      obtain ⟨p, hp⟩ := live y (List.mem_cons_of_mem x hy)
      rw [withHeap_heap, Heap.get?_put]
      split
      · exact ⟨_, rfl⟩
      · exact ⟨p, hp⟩
    refine ⟨s', ?_, saved.trans leads, fun y => ?_⟩
    · simp only [List.forM, Act.bind_apply, run₁, run]
    · rw [objects, withHeap_heap, Heap.get?_put]
      by_cases e : x = y
      · subst e
        rw [if_neg fresh, if_pos rfl, if_pos List.mem_cons_self, ho, Option.map_some]
      · simp [e, Ne.symm e]

/-- The sweep of isolated containers frees them, or takes a root reference to each. -/
theorem sweep_leads {options : PassOptions} (F : fin.Sound sc b n) (A : At sc b L Q s)
    (hn : s.memory.heap.unspent sc ≤ n) (I : s.memory.heap.Isolated xs)
    (swept : ∀ x ∈ xs, sc.sweeps x) (nodup : xs.Nodup) (zero : ∀ x ∈ xs, L x = 0)
    (saving : options.saveGarbage = true → sc.saving)
    (unpending : sc.Fixed → ∀ x ∈ xs, s.memory.heap.pending? x = none) :
    ∃ s', sweep fin options xs s = .ok () s' ∧ Leads sc b L s L Q s' ∧
      (options.saveGarbage = false → ∀ x ∈ xs, s'.memory.heap.get? x = none) ∧
      (options.saveGarbage = true → s.memory.heap.Retains xs s'.memory.heap) := by
  cases saves : options.saveGarbage with
  | true =>
    obtain ⟨s', run, leads, objects⟩ := saveAll_leads (saving saves) A nodup fun x hx => by
      obtain ⟨o, ho, -⟩ := I.unrooted x hx
      exact ⟨o, ho⟩
    refine ⟨s', ?_, leads, Bool.noConfusion, fun _ x => ?_⟩
    · simp only [sweep, saves, if_true, run]
    · rw [objects]
      split
      · rw [Option.map_map]
        rfl
      · rfl
  | false =>
    -- all references of the garbage are loose now; those inside of it go with their targets
    have unlinked : Leads sc b L s (L.add (xs.flatMap s.memory.heap.refs)) Q
        (s.withHeap (unlink s.memory.heap xs).1) :=
      unlinkAll_leads A I swept (fun _ => id) nodup
    obtain ⟨s₁, run₁, leads₁, gone⟩ := destroyAll_leads options.logCollectable unlinked.there nodup
      (fun x hx => unlink_clears I hx) fun fixed x hx =>
        unlinked.conduct.follows.unpending fixed (unpending fixed x hx)
    rw [clearAll_add zero, ← unlink_outgoing] at leads₁
    have sweeps := unlinked.trans leads₁
    obtain ⟨s', run, leads⟩ := dropAll_leads F sweeps.there (Nat.le_trans sweeps.unspent_le hn)
    refine ⟨s', ?_, sweeps.trans leads, fun _ x hx => ?_, Bool.noConfusion⟩
    · simp only [sweep, saves, Bool.false_eq_true, if_false, Act.bind_apply, Act.heap_apply,
        Act.setHeap_apply, run₁, run]
    · obtain ⟨o, ho, -⟩ := I.unrooted x hx
      have old := (A.sound.balanced.keyed ho).2.2
      exact (Steps.later leads.steps).dead
        (Nat.lt_of_lt_of_le old (Steps.later sweeps.steps).nextId) (gone x hx)

/-! ## A whole collection -/

theorem contains_iff {h : Heap} {x : ObjectId} : h.contains x = true ↔ ∃ o, h.get? x = some o :=
  Option.isSome_iff_exists

/-- The containers among the candidates that are looked at. -/
theorem mem_members {h : Heap} {x : ObjectId} : x ∈ Cycles.members h xs ↔
    x ∈ xs ∧ ∃ o, h.get? x = some o ∧ o.kind = .container ∧ o.freeing = false := by
  unfold Cycles.members
  rw [List.mem_filter, Option.any_eq_true]
  simp [Object.isContainer]

theorem live_of_mem_members {h : Heap} {x : ObjectId} (hx : x ∈ Cycles.members h xs) :
    ∃ o, h.get? x = some o :=
  (mem_members.mp hx).2.imp fun _ ho => ho.1

/-- What finalizers have left of isolated containers is divided once more. If none has run the
division is left out, as it would find nothing that is held. -/
theorem divideAgain_leads {ran : Bool} (A : At sc b L Q s) (nodup : xs.Nodup)
    (same : ran = false → s.memory.heap.Isolated xs ∧ ∀ x ∈ xs, L x = 0) :
    ∃ resurrected garbage h',
      (if (ran && !(xs.filter (s.memory.heap.contains ·)).isEmpty) = true then
        divide (xs.filter (s.memory.heap.contains ·))
      else pure ([], xs.filter (s.memory.heap.contains ·))) s =
        .ok (resurrected, garbage) (s.withHeap h') ∧
      Leads sc b L s L Q (s.withHeap h') ∧ s.memory.heap.Unmarked h' ∧
      Analysis.Parted s.memory.heap (xs.filter (s.memory.heap.contains ·)) resurrected garbage := by
  have live (x : ObjectId) (hx : x ∈ xs.filter (s.memory.heap.contains ·)) :
      ∃ o, s.memory.heap.get? x = some o := contains_iff.mp (List.mem_filter.mp hx).2
  cases ran with
  | false =>
    obtain ⟨I, zero⟩ := same rfl
    have all : xs.filter (s.memory.heap.contains ·) = xs := List.filter_eq_self.mpr fun x hx => by
      obtain ⟨o, ho, -⟩ := I.unrooted x hx
      exact contains_iff.mpr ⟨o, ho⟩
    refine ⟨[], _, s.memory.heap, rfl, A.here, ⟨rfl, rfl, fun _ => rfl⟩,
      Analysis.parted_of_unheld fun x => ?_⟩
    rw [all]
    exact I.not_held A.sound.balanced nodup zero
  | true =>
    cases empty : (xs.filter (s.memory.heap.contains ·)).isEmpty with
    | true =>
      -- the finalizers have freed all of them
      rw [List.isEmpty_iff.mp empty]
      exact ⟨[], [], s.memory.heap, rfl, A.here, ⟨rfl, rfl, fun _ => rfl⟩,
        Analysis.parted_of_unheld fun x held => absurd held.mem List.not_mem_nil⟩
    | false =>
      obtain ⟨resurrected, garbage, h', run, leads, unmarked, P⟩ :=
        divide_leads A (nodup.filter _) live
      exact ⟨resurrected, garbage, h', run, leads, unmarked, P⟩

/-- Dealing with isolated containers: no matter what their finalizers do, what they do not make
reachable again is reclaimed. -/
theorem reclaim_leads {options : PassOptions} (F : fin.Sound sc b n) (A : At sc b L Q s)
    (hn : s.memory.heap.unspent sc ≤ n) (I : s.memory.heap.Isolated xs)
    (swept : ∀ x ∈ xs, sc.sweeps x) (nodup : xs.Nodup) (zero : ∀ x ∈ xs, L x = 0)
    (saving : options.saveGarbage = true → sc.saving) :
    ∃ ran s₁ resurrected garbage s', finalizeAll fin xs s = .ok ran s₁ ∧ Leads sc b L s L Q s₁ ∧
      (ran = false → s₁ = s) ∧
      ((∀ x ∈ xs, ∀ o, s.memory.heap.get? x = some o → o.pendingFinalizer? = none) →
        ran = false) ∧
      Analysis.Parted s₁.memory.heap (xs.filter (s₁.memory.heap.contains ·)) resurrected garbage ∧
      reclaimWith id fin options xs s = .ok (xs.filter (!s₁.memory.heap.contains ·) ++ garbage,
        resurrected, if options.saveGarbage then garbage else []) s' ∧
      Leads sc b L s₁ L Q s' ∧
      (options.saveGarbage = false → ∀ x ∈ garbage, s'.memory.heap.get? x = none) ∧
      (options.saveGarbage = true → s₁.memory.heap.Retains garbage s'.memory.heap) := by
  obtain ⟨ran, s₁, run₁, leads₁, unpending⟩ := finalizeAll_leads F A hn xs
  have same (none : ran = false) : s₁ = s := eq_of_finalizeAll (none ▸ run₁)
  have quiet (none : ∀ x ∈ xs, ∀ o, s.memory.heap.get? x = some o → o.pendingFinalizer? = none) :
      ran = false := by
    rw [finalizeAll_of_none none] at run₁
    injection run₁ with e
    exact e.symm
  obtain ⟨resurrected, garbage, h', run₂, leads₂, unmarked, P⟩ :=
    divideAgain_leads leads₁.there nodup fun none => ⟨same none ▸ I, zero⟩
  have live (x : ObjectId) (hx : x ∈ xs.filter (s₁.memory.heap.contains ·)) :
      ∃ o, s₁.memory.heap.get? x = some o := contains_iff.mp (List.mem_filter.mp hx).2
  have left := nodup.filter (s₁.memory.heap.contains ·)
  obtain ⟨isolated, zero₂⟩ := P.isolated leads₁.there.sound.balanced left live
  have sub (x : ObjectId) (hx : x ∈ garbage) : x ∈ xs :=
    (List.mem_filter.mp (P.sub_unreachable.subset hx)).1
  obtain ⟨s₃, run₃, aside⟩ := reportIf_apply options.logUncollectable "uncollectable" resurrected
    (s₁.withHeap h')
  have told := leads₂.there.aside aside
  have before := leads₂.trans told
  obtain ⟨s', run, leads, gone, saved⟩ := sweep_leads F told.there
    (Nat.le_trans (leads₁.trans before).unspent_le hn)
    (aside.memory ▸ isolated.unmarked unmarked) (fun x hx => swept x (sub x hx))
    (P.sub_unreachable.nodup left) zero₂ saving fun fixed x hx =>
      before.conduct.follows.unpending fixed (unpending fixed x (sub x hx))
  rw [aside.memory] at saved
  refine ⟨ran, s₁, resurrected, garbage, s', run₁, leads₁, same, quiet, P, ?_, before.trans leads,
    gone, fun on => unmarked.retains (saved on)⟩
  -- the report is made or left out, after which both branches go on alike
  have rest : ∀ r, (if options.logUncollectable = true then do
        report "uncollectable" resurrected
        sweep fin options garbage
        pure r
      else do
        sweep fin options garbage
        pure r : Act (List ObjectId × List ObjectId × List ObjectId)) (s₁.withHeap h') =
      .ok r s' := by
    intro r
    cases log : options.logUncollectable <;>
      simp only [log, Bool.false_eq_true, if_true, if_false] at run₃ ⊢
    · cases run₃
      simp only [Act.bind_apply, run, Act.pure_apply]
    · simp only [Act.bind_apply, run₃, run, Act.pure_apply]
  cases again : (ran && !(xs.filter (s₁.memory.heap.contains ·)).isEmpty) <;>
    simp only [again, Bool.false_eq_true, if_true, if_false] at run₂
  · simp only [reclaimWith, id, Act.bind_apply, run₁, Act.heap_apply, again, Bool.false_eq_true,
      if_false, run₂]
    exact rest _
  · simp only [reclaimWith, id, Act.bind_apply, run₁, Act.heap_apply, again, if_true, run₂]
    exact rest _

/-- Without unreachable members there is nothing to deal with. -/
theorem reclaim_nil (fin : Finalization) (options : PassOptions) (s : Machine) :
    reclaimWith id fin options [] s = .ok ([], [], []) s := by
  cases log : options.logUncollectable <;> cases saves : options.saveGarbage <;>
    simp [reclaimWith, finalizeAll, report, sweep, unlink, log, saves] <;> rfl

/-- The course of a collection among `xs` that begins at `s`, kept as data. -/
structure Course (sc : Scope) (b : Bool) (L : Loose) (Q : ObjectId → Prop) (fin : Finalization)
    (g : Int) (xs : List ObjectId) (options : PassOptions) (s : Machine) where
  /-- The members that are held from outside when the collection begins. -/
  reachable : List ObjectId
  /-- The other members. -/
  unreachable : List ObjectId
  /-- The heap with the marks of the first division. -/
  marked : Heap
  divide_eq : divide (Cycles.members s.memory.heap xs) s =
    .ok (reachable, unreachable) (s.withHeap marked)
  unmarked : s.memory.heap.Unmarked marked
  parted : Analysis.Parted s.memory.heap (Cycles.members s.memory.heap xs) reachable unreachable
  /-- Some finalizer has run. -/
  ran : Bool
  /-- The machine when the finalizers have run. -/
  finalized : Machine
  finalize_eq : finalizeAll fin unreachable (s.withHeap marked) = .ok ran finalized
  finalizes : Leads sc b L s L Q finalized
  unchanged : ran = false → finalized = s.withHeap marked
  unhooked : (∀ x ∈ unreachable, ∀ o, s.memory.heap.get? x = some o →
    o.pendingFinalizer? = none) → ran = false
  report : CycleReport
  /-- What is not held from outside of the live part of the unreachable members by then. -/
  garbage : List ObjectId
  again : Analysis.Parted finalized.memory.heap
    (unreachable.filter (finalized.memory.heap.contains ·)) report.resurrected garbage
  /-- The machine at the end. -/
  after : Machine
  collect_eq : collect fin g xs options s = .ok report after
  sweeps : Leads sc b L finalized L Q after
  examined : report.examined = (Cycles.members s.memory.heap xs).length
  collected : report.collected =
    unreachable.filter (!finalized.memory.heap.contains ·) ++ garbage
  survivors : report.survivors = (reachable ++ report.resurrected ++
    if options.saveGarbage then garbage else []).filter (after.memory.heap.contains ·)
  gone : options.saveGarbage = false → ∀ x ∈ garbage, after.memory.heap.get? x = none
  saved : options.saveGarbage = true → finalized.memory.heap.Retains garbage after.memory.heap

/-- A collection succeeds and takes its course. -/
theorem collect_course (F : fin.Sound sc b n) (A : At sc b L Q s)
    (hn : s.memory.heap.unspent sc ≤ n) (nodup : xs.Nodup)
    (swept : ∀ x ∈ Cycles.members s.memory.heap xs,
      ¬ Analysis.Held s.memory.heap (Cycles.members s.memory.heap xs) x → sc.sweeps x)
    (g : Int) (options : PassOptions) (saving : options.saveGarbage = true → sc.saving) :
    Nonempty (Course sc b L Q fin g xs options s) := by
  have nodup : (Cycles.members s.memory.heap xs).Nodup := nodup.filter _
  have live (x : ObjectId) (hx : x ∈ Cycles.members s.memory.heap xs) :
      ∃ o, s.memory.heap.get? x = some o := live_of_mem_members hx
  obtain ⟨reachable, unreachable, h', run₁, leads₁, unmarked, P⟩ := divide_leads A nodup live
  obtain ⟨isolated, zero⟩ := P.isolated A.sound.balanced nodup live
  have pending (x : ObjectId) : (h'.get? x).map Object.pendingFinalizer? =
      (s.memory.heap.get? x).map Object.pendingFinalizer? := unmarked.map_view (fun _ => rfl) x
  have reclaimed := reclaim_leads F leads₁.there
    (Nat.le_trans leads₁.unspent_le hn) (isolated.unmarked unmarked) (fun x hx => by
      obtain ⟨mem, unheld⟩ := (P.mem_unreachable x).mp hx
      exact swept x mem unheld) (P.sub_unreachable.nodup nodup) zero saving
  obtain ⟨ran, s₁, resurrected, garbage, s', run₂, leads₂, same, quiet, again, run, leads, gone,
    saved⟩ := reclaimed
  have unhooked (none : ∀ x ∈ unreachable, ∀ o, s.memory.heap.get? x = some o →
      o.pendingFinalizer? = none) : ran = false := quiet fun x hx o ho => by
    -- the analysis does not touch finalizers
    have e := pending x
    rw [withHeap_heap] at ho
    rw [ho, Option.map_some, eq_comm, Option.map_eq_some_iff] at e
    obtain ⟨p, hp, e⟩ := e
    rw [← e]
    exact none x hx p hp
  have collect_eq : collect fin g xs options s = .ok
      { generation := g, examined := (Cycles.members s.memory.heap xs).length,
        collected := unreachable.filter (!s₁.memory.heap.contains ·) ++ garbage, resurrected,
        survivors := (reachable ++ resurrected ++
          if options.saveGarbage then garbage else []).filter (s'.memory.heap.contains ·) } s' := by
    cases empty : unreachable.isEmpty with
    | true =>
      obtain rfl := List.isEmpty_iff.mp empty
      rw [reclaim_nil] at run
      simp only [collect, collectWith, Act.bind_apply, Act.heap_apply, run₁, List.isEmpty_nil,
        if_true, Act.pure_apply]
      injection run with e₁ e₂
      simp only [Prod.mk.injEq] at e₁
      obtain ⟨e, rfl, e'⟩ := e₁
      rw [← e', ← e, ← e₂]
    | false =>
      simp only [collect, collectWith, Act.bind_apply, Act.heap_apply, run₁, empty,
        Bool.false_eq_true, if_false, run, Act.pure_apply]
  exact ⟨{ reachable, unreachable, marked := h', divide_eq := run₁, unmarked, parted := P, ran,
           finalized := s₁, finalize_eq := run₂, finalizes := leads₁.trans leads₂,
           unchanged := same, unhooked, garbage, again, after := s', collect_eq, sweeps := leads,
           report := _, examined := rfl, collected := rfl, survivors := rfl, gone, saved }⟩

namespace Course

variable {g : Int} {options : PassOptions} {x : ObjectId} (k : Course sc b L Q fin g xs options s)
include k

theorem leads : Leads sc b L s L Q k.after := k.finalizes.trans k.sweeps

/-- The finalizers run in steps of every scope that they lie within. -/
theorem finalizes_within {sc' : Scope} {L' : Loose} {Q' : ObjectId → Prop} (F : fin.Sound sc' b n)
    (A : At sc' b L' Q' s) (hn : s.memory.heap.unspent sc' ≤ n) :
    Leads sc' b L' s L' Q' k.finalized := by
  have marks := unmarked_leads A k.unmarked
  obtain ⟨ran, s', run, leads, -⟩ := finalizeAll_leads F marks.there
    (Nat.le_trans marks.unspent_le hn) k.unreachable
  rw [k.finalize_eq] at run
  cases run
  exact marks.trans leads

theorem mem_of_reachable (hx : x ∈ k.reachable) : x ∈ Cycles.members s.memory.heap xs :=
  k.parted.sub_reachable.subset hx

theorem mem_of_unreachable (hx : x ∈ k.unreachable) : x ∈ Cycles.members s.memory.heap xs :=
  k.parted.sub_unreachable.subset hx

theorem unreachable_of_resurrected (hx : x ∈ k.report.resurrected) : x ∈ k.unreachable :=
  (List.mem_filter.mp (k.again.sub_reachable.subset hx)).1

theorem unreachable_of_garbage (hx : x ∈ k.garbage) : x ∈ k.unreachable :=
  (List.mem_filter.mp (k.again.sub_unreachable.subset hx)).1

theorem unreachable_of_collected (hx : x ∈ k.report.collected) : x ∈ k.unreachable := by
  rw [k.collected] at hx
  exact (List.mem_append.mp hx).elim (fun hx => (List.mem_filter.mp hx).1) k.unreachable_of_garbage

/-- The unreachable members are isolated when the collection begins. -/
theorem isolated (A : At sc b L Q s) (nodup : xs.Nodup) :
    s.memory.heap.Isolated k.unreachable ∧ ∀ x ∈ k.unreachable, L x = 0 :=
  k.parted.isolated A.sound.balanced (nodup.filter _) fun _ => live_of_mem_members

theorem old (A : At sc b L Q s) (hx : x ∈ Cycles.members s.memory.heap xs) :
    x < k.after.memory.heap.nextId := by
  obtain ⟨-, o, ho, -⟩ := mem_members.mp hx
  exact Nat.lt_of_lt_of_le (A.sound.balanced.keyed ho).2.2 (Steps.later k.leads.steps).nextId

/-- A member that finalizers have freed stays dead. -/
theorem dead_of_freed (A : At sc b L Q s) (hx : x ∈ k.unreachable)
    (dead : k.finalized.memory.heap.get? x = none) : k.after.memory.heap.get? x = none := by
  obtain ⟨-, o, ho, -⟩ := mem_members.mp (k.mem_of_unreachable hx)
  have old := Nat.lt_of_lt_of_le (A.sound.balanced.keyed ho).2.2
    (Steps.later k.finalizes.steps).nextId
  exact (Steps.later k.sweeps.steps).dead old dead

/-- Unless garbage is saved, what is collected is dead at the end. -/
theorem dead_of_collected (A : At sc b L Q s) (saves : options.saveGarbage = false)
    (hx : x ∈ k.report.collected) : k.after.memory.heap.get? x = none := by
  rw [k.collected] at hx
  rcases List.mem_append.mp hx with hx | hx
  · obtain ⟨mem, dead⟩ := List.mem_filter.mp hx
    exact k.dead_of_freed A mem (by simpa [Heap.contains] using dead)
  · exact k.gone saves x hx

/-- Survivors are members that are live at the end. -/
theorem member_of_survivor (hx : x ∈ k.report.survivors) :
    x ∈ Cycles.members s.memory.heap xs ∧ ∃ p, k.after.memory.heap.get? x = some p := by
  rw [k.survivors] at hx
  obtain ⟨mem, here⟩ := List.mem_filter.mp hx
  refine ⟨?_, contains_iff.mp here⟩
  rcases List.mem_append.mp mem with mem | mem
  · exact (List.mem_append.mp mem).elim k.mem_of_reachable
      fun mem => k.mem_of_unreachable (k.unreachable_of_resurrected mem)
  · split at mem
    · exact k.mem_of_unreachable (k.unreachable_of_garbage mem)
    · cases mem

/-- Members that are live at the end are containers still. -/
theorem container_of_member (A : At sc b L Q s) (hx : x ∈ Cycles.members s.memory.heap xs)
    {p : Object} (hp : k.after.memory.heap.get? x = some p) : p.kind = .container := by
  obtain ⟨-, o, ho, kind, -⟩ := mem_members.mp hx
  obtain ⟨o', ho', kind', -⟩ := (Steps.later k.leads.steps).old (A.sound.balanced.keyed ho).2.2 hp
  rw [ho, Option.some.injEq] at ho'
  exact kind'.trans (ho' ▸ kind)

/-- Without finalizers nothing has changed when the members are divided again, so what is collected
is what was not held. -/
theorem quiet (A : At sc b L Q s) (nodup : xs.Nodup)
    (none : ∀ x ∈ k.unreachable, ∀ o, s.memory.heap.get? x = some o →
      o.pendingFinalizer? = none) :
    k.finalized = s.withHeap k.marked ∧ k.garbage = k.unreachable ∧
      k.report.collected = k.unreachable ∧ k.report.resurrected = [] := by
  have same := k.unchanged (k.unhooked none)
  have again := k.again
  have collected := k.collected
  obtain ⟨isolated, zero⟩ := k.isolated A nodup
  have isolated := isolated.unmarked k.unmarked
  have live (x : ObjectId) (hx : x ∈ k.unreachable) : k.marked.contains x = true := by
    obtain ⟨o, ho, -⟩ := isolated.unrooted x hx
    exact contains_iff.mpr ⟨o, ho⟩
  have all : k.unreachable.filter (k.marked.contains ·) = k.unreachable :=
    List.filter_eq_self.mpr live
  have gone : k.unreachable.filter (!k.marked.contains ·) = [] :=
    List.filter_eq_nil_iff.mpr fun x hx => by simp [live x hx]
  have balanced := k.finalizes.there.sound.balanced
  rw [same, withHeap_heap] at again collected balanced
  rw [all] at again
  rw [gone, List.nil_append] at collected
  have nodup : k.unreachable.Nodup := k.parted.sub_unreachable.nodup (nodup.filter _)
  have undivided := Analysis.parted_of_unheld fun x =>
        isolated.not_held (x := x) balanced nodup zero
  have garbage := (again.unreachable_eq nodup).trans (undivided.unreachable_eq nodup).symm
  exact ⟨same, garbage, collected.trans garbage,
    (again.reachable_eq nodup).trans (undivided.reachable_eq nodup).symm⟩

end Course

end Cycles

end Reclaim
