import Mathlib.Data.List.Nodup
import Mathlib.Data.List.Sort
import Reclaim.Collector
import Reclaim.Proofs.Edits

/-!
# Buckets and ages

A tracker files a handle under a generation; the object behind it carries the same age.
`Tracker.Files` says that whatever is filed is a live container of that age, which keeps the buckets
apart and makes the candidates of a pass free of repetitions (`Tracker.Files.nodup_candidates`). A
collector that was there from the beginning also files every container (`Tracker.FilesAll`).
Allocating, freeing and promoting keep both.
-/

set_option autoImplicit false

namespace Reclaim

theorem PerGeneration.get_update {α : Type} (v : PerGeneration α) (g : Generation) (f : α → α)
    (i : Generation) : (v.update g f).get i = if g = i then f (v.get g) else v.get i := by
  show (v.set g.val (f (v.get g)) g.isLt)[i.val] = _
  rw [Vector.getElem_set]
  split
  · next same => rw [if_pos (Fin.ext same)]
  · next differ =>
    rw [if_neg fun same => differ (congrArg Fin.val same)]
    rfl

theorem Generation.ofInt?_eq_some_iff (n : Int) (g : Generation) :
    Generation.ofInt? n = some g ↔ n = g.val := by
  unfold Generation.ofInt?
  split
  · rw [Option.some.injEq, Fin.ext_iff]
    show n.toNat = g.val ↔ n = g.val
    omega
  · next outside =>
    constructor
    · intro absurd
      cases absurd
    · intro same
      have := g.isLt
      omega

namespace Ascending

/-- Merging is the merging of the library. -/
theorem merge_eq : ∀ ids others : List ObjectId, merge ids others = ids.merge others (· ≤ ·)
  | [], others => by
    rw [List.nil_merge]
    rfl
  | first :: rest, others => by
    induction others with
    | nil =>
      rw [List.merge_right]
      rfl
    | cons id ids ih =>
      rw [merge] at ih
      rw [List.cons_merge_cons, merge, mergeFirst, ih, merge_eq rest]
      simp only [decide_eq_true_eq]

/-- Merging keeps all entries. -/
theorem merge_perm (ids others : List ObjectId) : (merge ids others).Perm (ids ++ others) := by
  rw [merge_eq]
  exact List.merge_perm_append _

/-- Merging keeps the order. -/
theorem merge_sorted {ids others : List ObjectId} (one : ids.Pairwise (· ≤ ·))
    (two : others.Pairwise (· ≤ ·)) : (merge ids others).Pairwise (· ≤ ·) := by
  rw [merge_eq]
  simpa using one.merge two

end Ascending

/-- What the tracker has to know of an object: its kind and its age. -/
def Heap.filing (h : Heap) (x : ObjectId) : Option (Kind × Int) :=
  (h.get? x).map fun o => (o.kind, o.generation)

namespace Tracker

variable {t : Tracker} {h h' : Heap} {x y : ObjectId} {o : Object}

/-- Whatever is filed under a generation is a live container of that age. -/
def Files (t : Tracker) (h : Heap) : Prop :=
  ∀ (g : Generation) (x : ObjectId), x ∈ t.bucket g → h.filing x = some (.container, (g.val : Int))

/-- Every live container is filed under its age. -/
def FilesAll (t : Tracker) (h : Heap) : Prop :=
  ∀ (x : ObjectId) (n : Int), h.filing x = some (.container, n) →
    ∃ g : Generation, n = g.val ∧ x ∈ t.bucket g

theorem Files.congr (F : t.Files h) (same : ∀ x, h'.filing x = h.filing x) : t.Files h' :=
  fun g x hx => (same x).trans (F g x hx)

theorem FilesAll.congr (F : t.FilesAll h) (same : ∀ x, h'.filing x = h.filing x) :
    t.FilesAll h' :=
  fun x n hx => F x n ((same x).symm.trans hx)

theorem Files.of_buckets {t' : Tracker} (F : t.Files h) (same : t'.buckets = t.buckets) :
    t'.Files h := by
  intro g x hx
  rw [bucket, same] at hx
  exact F g x hx

theorem FilesAll.of_buckets {t' : Tracker} (F : t.FilesAll h) (same : t'.buckets = t.buckets) :
    t'.FilesAll h := by
  intro x n hx
  obtain ⟨g, age, filed⟩ := F x n hx
  refine ⟨g, age, ?_⟩
  rw [bucket, same]
  exact filed

theorem mem_modifyBucket (t : Tracker) (g : Generation) (f : IdSet → IdSet) (i : Generation) :
    x ∈ (t.modifyBucket g f).bucket i ↔ if g = i then x ∈ f (t.bucket g) else x ∈ t.bucket i := by
  unfold modifyBucket bucket
  rw [PerGeneration.get_update]
  split <;> rfl

theorem mem_insert (ids : IdSet) : y ∈ ids.insert x ↔ x = y ∨ y ∈ ids := by
  rw [Std.ExtTreeSet.mem_insert, Std.LawfulEqCmp.compare_eq_iff_eq]

theorem mem_erase (ids : IdSet) : y ∈ ids.erase x ↔ x ≠ y ∧ y ∈ ids := by
  rw [Std.ExtTreeSet.mem_erase, ne_eq, Std.LawfulEqCmp.compare_eq_iff_eq]

/-- Untracking strikes an object from the bucket of its age. -/
theorem mem_untrack (t : Tracker) (o : Object) (i : Generation) :
    y ∈ (t.untrack o).bucket i ↔ y ∈ t.bucket i ∧ ¬ (o.generation = i.val ∧ o.id = y) := by
  unfold untrack
  split
  · next g hg =>
    rw [Generation.ofInt?_eq_some_iff] at hg
    rw [mem_modifyBucket, mem_erase]
    split
    · next e =>
      subst e
      simp only [hg, true_and]
      exact and_comm
    · next differ =>
      -- the object is filed elsewhere, if at all
      have other : ¬ o.generation = i.val := fun same => differ (Fin.ext (by omega))
      simp [other]
  · next none =>
    -- an age that is no generation is that of no bucket
    have outside : ¬ o.generation = i.val := fun same => by
      rw [(Generation.ofInt?_eq_some_iff _ _).mpr same] at none
      cases none
    simp [outside]

/-- What is filed is a live container of that age. -/
theorem Files.exists_container (F : t.Files h) {g : Generation} (filed : x ∈ t.bucket g) :
    ∃ o, h.get? x = some o ∧ o.kind = .container ∧ o.generation = g.val := by
  have filing := F g x filed
  rw [Heap.filing, Option.map_eq_some_iff] at filing
  obtain ⟨o, ho, e⟩ := filing
  rw [Prod.mk.injEq] at e
  exact ⟨o, ho, e⟩

/-- What is filed under a generation is what has its age. -/
theorem Files.mem_bucket_iff (F : t.Files h) (all : t.FilesAll h)
    (g : Generation) : x ∈ t.bucket g ↔ h.filing x = some (.container, (g.val : Int)) := by
  refine ⟨F g x, fun filing => ?_⟩
  obtain ⟨i, age, filed⟩ := all x g.val filing
  have same : g = i := Fin.ext (by omega)
  exact same ▸ filed

/-- Trackers that know heaps of the same ages completely have the same buckets. -/
theorem Files.buckets_eq {t₁ t₂ : Tracker} {h₁ h₂ : Heap} (F₁ : t₁.Files h₁)
    (all₁ : t₁.FilesAll h₁) (F₂ : t₂.Files h₂) (all₂ : t₂.FilesAll h₂)
    (same : ∀ x, h₁.filing x = h₂.filing x) : t₁.buckets = t₂.buckets := by
  apply Vector.ext
  intro i hi
  apply Std.ExtTreeSet.ext_mem
  intro x
  have one := F₁.mem_bucket_iff (x := x) all₁ ⟨i, hi⟩
  have two := F₂.mem_bucket_iff (x := x) all₂ ⟨i, hi⟩
  rw [same] at one
  exact one.trans two.symm

/-! ## Candidates -/

theorem candidates_perm (t : Tracker) (g : Generation) :
    (t.candidates g).Perm (g.upTo.flatMap fun i => (t.bucket i).toList) := by
  have merged : ∀ gs : List Generation,
      (gs.foldr (fun i => Ascending.merge (t.bucket i).toList) []).Perm
        (gs.flatMap fun i => (t.bucket i).toList) := by
    intro gs
    induction gs with
    | nil => exact .refl _
    | cons i gs ih =>
      rw [List.foldr_cons, List.flatMap_cons]
      exact (Ascending.merge_perm _ _).trans (ih.append_left _)
  exact merged g.upTo

theorem mem_candidates (t : Tracker) (g : Generation) :
    x ∈ t.candidates g ↔ ∃ i, i ≤ g ∧ x ∈ t.bucket i := by
  rw [(t.candidates_perm g).mem_iff, List.mem_flatMap]
  simp only [Generation.upTo, List.mem_filter, List.mem_finRange, true_and, decide_eq_true_eq,
    Std.ExtTreeSet.mem_toList]

/-- No handle is filed twice. -/
theorem Files.unique (F : t.Files h) {i j : Generation} (hi : x ∈ t.bucket i)
    (hj : x ∈ t.bucket j) : i = j := by
  have same := (F i x hi).symm.trans (F j x hj)
  rw [Option.some.injEq, Prod.mk.injEq] at same
  exact Fin.ext (by omega)

theorem Files.nodup_candidates (F : t.Files h) (g : Generation) : (t.candidates g).Nodup := by
  rw [(t.candidates_perm g).nodup_iff, List.nodup_flatMap]
  constructor
  -- within a bucket handles are distinct, and different buckets share none
  · intro i _
    refine Std.ExtTreeSet.distinct_toList.imp fun {a b} differ same => differ ?_
    rw [Std.LawfulEqCmp.compare_eq_iff_eq]
    exact same
  · have distinct : g.upTo.Nodup := (List.nodup_finRange 3).filter _
    refine distinct.imp fun {i j} differ => ?_
    intro x hi hj
    rw [Std.ExtTreeSet.mem_toList] at hi hj
    exact differ (F.unique hi hj)

theorem candidates_sorted (t : Tracker) (g : Generation) :
    (t.candidates g).Pairwise (· ≤ ·) := by
  have merged : ∀ gs : List Generation,
      (gs.foldr (fun i => Ascending.merge (t.bucket i).toList) []).Pairwise (· ≤ ·) := by
    intro gs
    induction gs with
    | nil => exact .nil
    | cons i gs ih =>
      refine Ascending.merge_sorted (Std.ExtTreeSet.ordered_toList.imp fun less => ?_) ih
      exact Nat.le_of_lt (Nat.compare_eq_lt.mp less)
  exact merged g.upTo

/-- Candidates are listed by ascending handle, each of them once. -/
theorem Files.ascending_candidates (F : t.Files h) (g : Generation) :
    (t.candidates g).Pairwise (· < ·) :=
  ((t.candidates_sorted g).and (F.nodup_candidates g)).imp fun ⟨le, ne⟩ => Nat.lt_of_le_of_ne le ne

theorem FilesAll.mem_candidates_oldest (F : t.FilesAll h) (hx : h.get? x = some o)
    (kind : o.kind = .container) : x ∈ t.candidates .oldest := by
  have filed : h.filing x = some (.container, o.generation) := by
    rw [Heap.filing, hx, Option.map_some, kind]
  obtain ⟨g, -, mem⟩ := F x o.generation filed
  exact (t.mem_candidates .oldest).mpr ⟨g, Fin.le_last g, mem⟩

/-! ## Allocating and freeing -/

/-- The object that an allocation puts into a heap. -/
def newObject (h : Heap) (kind : Kind) (typeName : String) : Object :=
  { id := h.nextId, kind, typeName, strongCount := 1, rootCount := 1 }

theorem mem_allocated (t : Tracker) (o : Object) (g : Generation) :
    y ∈ (t.allocated o).1.bucket g ↔
      y ∈ t.bucket g ∨ (o.kind = .container ∧ g = .youngest ∧ o.id = y) := by
  unfold allocated
  split
  · next container =>
    have kind : o.kind = .container := by simpa [Object.isContainer] using container
    show y ∈ ((t.modifyBucket .youngest (·.insert o.id)).countAllocation).bucket g ↔ _
    show y ∈ (t.modifyBucket .youngest (·.insert o.id)).bucket g ↔ _
    rw [mem_modifyBucket, mem_insert]
    split
    · next e =>
      subst e
      simp only [kind, true_and]
      exact or_comm
    · next differ => simp [Ne.symm differ]
  · next other =>
    have kind : o.kind ≠ .container := by simpa [Object.isContainer] using other
    show y ∈ t.bucket g ↔ _
    simp [kind]

theorem allocated_object (t : Tracker) (h : Heap) (kind : Kind) (typeName : String) :
    (t.allocated (newObject h kind typeName)).2 = newObject h kind typeName := by
  unfold allocated
  split <;> rfl

theorem mem_deallocated (t : Tracker) (o : Object) (g : Generation) :
    y ∈ (t.deallocated o).bucket g ↔
      y ∈ t.bucket g ∧ ¬ (o.kind = .container ∧ o.generation = g.val ∧ o.id = y) := by
  unfold deallocated
  split
  · next container =>
    have kind : o.kind = .container := by simpa [Object.isContainer] using container
    rw [mem_untrack]
    simp only [kind, true_and]
    rfl
  · next other =>
    have kind : o.kind ≠ .container := by simpa [Object.isContainer] using other
    simp only [kind, false_and, not_false_eq_true, and_true]
    rfl

theorem filing_allocate (h : Heap) (kind : Kind) (typeName : String) (y : ObjectId) :
    (h.allocate kind typeName).2.filing y =
      if h.nextId = y then some (kind, 0) else h.filing y := by
  have get : (h.allocate kind typeName).2.get? y =
      if h.nextId = y then some (newObject h kind typeName) else h.get? y :=
    Heap.get?_put h h.nextId (newObject h kind typeName) y
  rw [Heap.filing, get]
  split <;> rfl

theorem Files.allocated (F : t.Files h) (fresh : h.get? h.nextId = none) (kind : Kind)
    (typeName : String) :
    (t.allocated (newObject h kind typeName)).1.Files (h.allocate kind typeName).2 := by
  intro g y hy
  rw [filing_allocate]
  rcases (t.mem_allocated _ g).mp hy with filed | ⟨container, rfl, id⟩
  · have filing := F g y filed
    -- what is filed was live before, so it is not the new handle
    have ne : h.nextId ≠ y := by
      rintro rfl
      rw [Heap.filing, fresh] at filing
      cases filing
    rw [if_neg ne]
    exact filing
  · have e : h.nextId = y := id
    have k : kind = .container := container
    rw [if_pos e, k]
    rfl

theorem FilesAll.allocated (F : t.FilesAll h) (kind : Kind) (typeName : String) :
    (t.allocated (newObject h kind typeName)).1.FilesAll (h.allocate kind typeName).2 := by
  intro y n hy
  rw [filing_allocate] at hy
  split at hy
  · next e =>
    rw [Option.some.injEq, Prod.mk.injEq] at hy
    exact ⟨.youngest, hy.2.symm, (t.mem_allocated _ _).mpr (.inr ⟨hy.1, rfl, e⟩)⟩
  · obtain ⟨g, age, filed⟩ := F y n hy
    exact ⟨g, age, (t.mem_allocated _ g).mpr (.inl filed)⟩

theorem Files.deallocated (F : t.Files h) (hx : h.get? x = some o) (id : o.id = x) :
    (t.deallocated o).Files (h.erase x) := by
  intro g y hy
  obtain ⟨filed, other⟩ := (t.mem_deallocated o g).mp hy
  have filing := F g y filed
  -- the object is filed under its own age only, and has been struck from there
  have ne : x ≠ y := by
    rintro rfl
    rw [Heap.filing, hx, Option.map_some, Option.some.injEq, Prod.mk.injEq] at filing
    exact other ⟨filing.1, filing.2, id⟩
  rw [Heap.filing, Heap.get?_erase, if_neg ne]
  exact filing

theorem FilesAll.deallocated (F : t.FilesAll h) (id : o.id = x) :
    (t.deallocated o).FilesAll (h.erase x) := by
  intro y n hy
  rw [Heap.filing, Heap.get?_erase] at hy
  split at hy
  · cases hy
  · next ne =>
    obtain ⟨g, age, filed⟩ := F y n hy
    exact ⟨g, age, (t.mem_deallocated o g).mpr ⟨filed, fun same => ne (id.symm.trans same.2.2)⟩⟩

/-! ## Promoting -/

theorem mem_promote (target : Generation) (t : Tracker) (o : Object) (g : Generation) :
    y ∈ (promote target t o).1.bucket g ↔
      (g = target ∧ o.id = y) ∨ (y ∈ t.bucket g ∧ ¬ (o.generation = g.val ∧ o.id = y)) := by
  unfold promote
  split
  · next age =>
    rw [mem_modifyBucket, mem_insert]
    split
    · next e =>
      subst e
      by_cases same : o.id = y <;> simp [same]
    · next differ =>
      have other : ¬ o.generation = g.val := fun same => differ (Fin.ext (by omega))
      simp [Ne.symm differ, other]
  · rw [mem_modifyBucket, mem_insert, mem_untrack, mem_untrack]
    split
    · next e => simp [e]
    · next differ => simp [Ne.symm differ]

theorem promote_object (target : Generation) (t : Tracker) (o : Object) :
    (promote target t o).2 = { o with generation := target.val } := by
  unfold promote
  split
  · next age => rw [← age]
  · rfl

theorem Files.promote (F : t.Files h) (hx : h.get? x = some o) (id : o.id = x)
    (kind : o.kind = .container) (target : Generation) :
    (promote target t o).1.Files (h.put x (promote target t o).2) := by
  intro g y hy
  rw [promote_object, Heap.filing, Heap.get?_put]
  rcases (mem_promote target t o g).mp hy with ⟨rfl, same⟩ | ⟨filed, other⟩
  · rw [if_pos (id.symm.trans same), Option.map_some, kind]
  · have filing := F g y filed
    have ne : x ≠ y := by
      rintro rfl
      rw [Heap.filing, hx, Option.map_some, Option.some.injEq, Prod.mk.injEq] at filing
      exact other ⟨filing.2, id⟩
    rw [if_neg ne]
    exact filing

theorem FilesAll.promote (F : t.FilesAll h) (id : o.id = x) (target : Generation) :
    (promote target t o).1.FilesAll (h.put x (promote target t o).2) := by
  intro y n hy
  rw [promote_object, Heap.filing, Heap.get?_put] at hy
  split at hy
  · next e =>
    rw [Option.map_some, Option.some.injEq, Prod.mk.injEq] at hy
    exact ⟨target, hy.2.symm, (mem_promote target t o target).mpr (.inl ⟨rfl, id.trans e⟩)⟩
  · next ne =>
    obtain ⟨g, age, filed⟩ := F y n hy
    exact ⟨g, age, (mem_promote target t o g).mpr
      (.inr ⟨filed, fun same => ne (id.symm.trans same.2)⟩)⟩

/-- The heap with another table of objects. -/
def withTable (h : Heap) (table : ObjectTable) : Heap := { h with objects := table }

/-- Promoting survivors gives them the age of the target and changes nothing else of them. -/
theorem get?_promoteAll (target : Generation) (survivors : List ObjectId) (t : Tracker) (h : Heap)
    (x : ObjectId) :
    (withTable h (promoteAll target t h.objects survivors).2).get? x =
      (h.get? x).map fun o => if x ∈ survivors then { o with generation := target.val } else o := by
  induction survivors generalizing t h with
  | nil =>
    show h.get? x = _
    simp
  | cons y rest ih =>
    unfold promoteAll
    split
    -- a dead survivor is passed over
    · next dead =>
      rw [ih t h]
      by_cases e : x = y
      · subst e
        have hx : h.get? x = none := dead
        rw [hx]
        rfl
      · simp [e]
    · next o live =>
      -- an object may be listed twice; promoting it again does not matter
      have step := ih (promote target t o).1 (h.put y (promote target t o).2)
      apply step.trans
      rw [Heap.get?_put, promote_object]
      have hy : h.get? y = some o := live
      by_cases e : y = x
      · subst e
        rw [hy]
        simp
      · simp [e, Ne.symm e]

theorem Files.promoteAll {survivors : List ObjectId} (F : t.Files h)
    (containers : ∀ x ∈ survivors, ∃ o, h.get? x = some o ∧ o.id = x ∧ o.kind = .container)
    (target : Generation) :
    (promoteAll target t h.objects survivors).1.Files
      (withTable h (promoteAll target t h.objects survivors).2) := by
  induction survivors generalizing t h with
  | nil => exact F
  | cons y rest ih =>
    obtain ⟨o, hy, id, kind⟩ := containers y List.mem_cons_self
    have step := F.promote hy id kind target
    have later : ∀ x ∈ rest, ∃ p, (h.put y (Tracker.promote target t o).2).get? x = some p ∧
        p.id = x ∧ p.kind = .container := by
      intro x hx
      obtain ⟨p, hp, idp, kindp⟩ := containers x (List.mem_cons_of_mem y hx)
      rw [Heap.get?_put, promote_object]
      split
      · next e => exact ⟨_, rfl, id.trans e, kind⟩
      · exact ⟨p, hp, idp, kindp⟩
    have live : h.objects[y]? = some o := hy
    unfold Tracker.promoteAll
    rw [live]
    exact ih step later

theorem FilesAll.promoteAll (F : t.FilesAll h) (survivors : List ObjectId)
    (keyed : ∀ {x o}, h.get? x = some o → o.id = x) (target : Generation) :
    (promoteAll target t h.objects survivors).1.FilesAll
      (withTable h (promoteAll target t h.objects survivors).2) := by
  induction survivors generalizing t h with
  | nil => exact F
  | cons y rest ih =>
    unfold Tracker.promoteAll
    split
    · exact ih F keyed
    · next o live =>
      have hy : h.get? y = some o := live
      refine ih (F.promote (keyed hy) target) fun {x p} hx => ?_
      rw [Heap.get?_put, promote_object] at hx
      split at hx
      · next e =>
        cases hx
        exact (keyed hy).trans e
      · exact keyed hx

end Tracker

/-- Allocating puts the new object into the heap and lets the collector file it. -/
theorem Memory.allocate_eq (m : Memory) (kind : Kind) (typeName : String) :
    m.allocate kind typeName = (m.heap.nextId, {
      heap := (m.heap.allocate kind typeName).2
      collector := m.collector.map fun c => { c with
        tracker := (c.tracker.allocated (Tracker.newObject m.heap kind typeName)).1 } }) := by
  cases hc : m.collector with
  | none =>
    unfold allocate
    rw [hc]
    rfl
  | some c =>
    -- filing does not change the new object, so it is stored once more as it is
    have same := c.tracker.allocated_object m.heap kind typeName
    have stored : (m.heap.allocate kind typeName).2.get? m.heap.nextId =
        some (Tracker.newObject m.heap kind typeName) := by
      show (m.heap.put m.heap.nextId (Tracker.newObject m.heap kind typeName)).get? _ = _
      rw [Heap.get?_put, if_pos rfl]
    have kept := Heap.put_self stored
    unfold allocate
    rw [hc]
    show ((c.tracker.allocated (Tracker.newObject m.heap kind typeName)).2.id,
      Memory.mk ((m.heap.allocate kind typeName).2.put
        (c.tracker.allocated (Tracker.newObject m.heap kind typeName)).2.id
        (c.tracker.allocated (Tracker.newObject m.heap kind typeName)).2) _) = _
    rw [same]
    exact Prod.ext rfl (congrArg (Memory.mk · _) kept)

end Reclaim
