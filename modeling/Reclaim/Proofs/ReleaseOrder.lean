import Reclaim.Proofs.Releases

/-!
# The order of releases

Releasing one object after the other, in whatever order, comes to the same thing if no finalizer is
pending: what is freed is what has to go once the host has given up all these references at once
(`Heap.disclaim`, `Host.releases_drop`). A release takes doomed objects apart, and what is doomed
after it was so before, as remnants of remnants are remnants (`Heap.Remnant.trans`).

The outcome is determined by what is left, since counts follow from references
(`Machine.Drops.unmarked`), and by which objects have died, since the collector strikes and counts
them one by one (`Machine.Buries.tracker_eq`). So it is the same for all orders
(`Host.releases_perm`).
-/

set_option autoImplicit false

namespace Reclaim

open Machine

namespace Heap

variable {h h' h₁ h₂ : Heap} {garbage xs ys : List ObjectId} {x : ObjectId} {o : Object}

/-! ## Remnants of remnants -/

/-- What is doomed in a remnant was doomed before. -/
theorem Remnant.doomed (R : h.Remnant garbage h₁) (doomed : h₁.Doomed garbage x) :
    h.Doomed garbage x := by
  induction doomed with
  | garbage mem => exact .garbage mem
  | orphan hp root _ ih => exact R.doomed_of_held hp root ih

theorem Remnant.trans (one : h.Remnant garbage h₁) (two : h₁.Remnant garbage h₂) :
    h.Remnant garbage h₂ where
  nextId := two.nextId.trans one.nextId
  old x p hp := by
    obtain ⟨q, hq, same | ⟨doomed, same⟩⟩ := two.old x p hp
    · obtain ⟨o, ho, kept⟩ := one.old x q hq
      rw [← same] at kept
      exact ⟨o, ho, kept⟩
    · obtain ⟨o, ho, kept | ⟨-, kept⟩⟩ := one.old x q hq
      · exact ⟨o, ho, .inr ⟨one.doomed doomed, same.trans (congrArg Object.clearReferences kept)⟩⟩
      · exact ⟨o, ho, .inr ⟨one.doomed doomed, same.trans (congrArg Object.clearReferences kept)⟩⟩
  gone x o ho dead := by
    cases hq : h₁.get? x with
    | none => exact one.gone x o ho hq
    | some q => exact one.doomed (two.gone x q hq dead)

/-! ## Giving up references of the host -/

/-- The heap in which the host has given up some of its references, one for each time that an object
is listed. Counts still include them. -/
def disclaim (h : Heap) (xs : List ObjectId) : Heap :=
  { h with objects := h.objects.map fun x o => { o with rootCount := o.rootCount - xs.count x } }

theorem get?_disclaim (h : Heap) (xs : List ObjectId) (x : ObjectId) :
    (h.disclaim xs).get? x =
      (h.get? x).map fun o => { o with rootCount := o.rootCount - xs.count x } :=
  Std.ExtTreeMap.getElem?_map

theorem disclaim_nil (h : Heap) : h.disclaim [] = h := by
  refine ext_get? (fun x => ?_) rfl rfl
  rw [get?_disclaim]
  cases h.get? x <;> rfl

theorem disclaim_perm (h : Heap) (perm : xs.Perm ys) : h.disclaim xs = h.disclaim ys := by
  unfold disclaim
  simp only [perm.count_eq]

/-- The references of the host may be given up one after the other. -/
theorem disclaim_cons (given : h.giveUpRoot x = .ok h') :
    h.disclaim (x :: xs) = h'.disclaim xs := by
  obtain ⟨o, n, hx, hn, rfl⟩ := exists_of_giveUpRoot given
  refine ext_get? (fun y => ?_) rfl rfl
  rw [get?_disclaim, get?_disclaim, get?_put]
  split
  · next e =>
    subst e
    rw [hx, Option.map_some, Option.map_some, hn, List.count_cons_self, Nat.add_sub_add_right]
  · next ne => simp only [List.count_cons_of_ne ne]

theorem refs_disclaim (h : Heap) (xs : List ObjectId) (r : ObjectId) :
    (h.disclaim xs).refs r = h.refs r := by
  unfold refs
  rw [get?_disclaim]
  cases h.get? r <;> rfl

theorem filing_disclaim (h : Heap) (xs : List ObjectId) (x : ObjectId) :
    (h.disclaim xs).filing x = h.filing x := by
  unfold filing
  rw [get?_disclaim, Option.map_map]
  rfl

/-- The less the host holds, the more is doomed. -/
theorem Doomed.disclaim (doomed : h.Doomed garbage x) (xs : List ObjectId) :
    (h.disclaim xs).Doomed garbage x := by
  induction doomed with
  | garbage mem => exact .garbage mem
  | @orphan x o ho root _ ih =>
    have hx := get?_disclaim h xs x
    rw [ho, Option.map_some] at hx
    refine .orphan hx ?_ fun r hr => ih r ?_
    · show o.rootCount - xs.count x = 0
      rw [root, Nat.zero_sub]
    · rwa [refs_disclaim] at hr

theorem Remnant.disclaim (R : h.Remnant garbage h₁) (xs : List ObjectId) :
    (h.disclaim xs).Remnant garbage (h₁.disclaim xs) where
  nextId := R.nextId
  old x p hp := by
    rw [get?_disclaim, Option.map_eq_some_iff] at hp
    obtain ⟨q, hq, rfl⟩ := hp
    obtain ⟨o, ho, kept⟩ := R.old x q hq
    refine ⟨_, by rw [get?_disclaim, ho, Option.map_some], ?_⟩
    rcases kept with same | ⟨doomed, same⟩
    · exact .inl (congrArg (fun o : Object =>
        { o with rootCount := o.rootCount - xs.count x }) same)
    · exact .inr ⟨doomed.disclaim xs,
        congrArg (fun o : Object => { o with rootCount := o.rootCount - xs.count x }) same⟩
  gone x o ho dead := by
    rw [get?_disclaim, Option.map_eq_some_iff] at ho
    obtain ⟨q, hq, -⟩ := ho
    rw [get?_disclaim, Option.map_eq_none_iff] at dead
    exact (R.gone x q hq dead).disclaim xs

/-- The host holds an object as often as it is listed. -/
def Backs (h : Heap) (xs : List ObjectId) : Prop :=
  ∀ x ∈ xs, ∃ o, h.get? x = some o ∧ xs.count x ≤ o.rootCount

theorem Backs.perm (backs : h.Backs xs) (perm : ys.Perm xs) : h.Backs ys := by
  intro x mem
  obtain ⟨o, ho, enough⟩ := backs x (perm.mem_iff.mp mem)
  exact ⟨o, ho, perm.count_eq x ▸ enough⟩

/-- A release that the list asks for leaves enough for the others. -/
theorem Backs.tail (backs : h.Backs (x :: xs)) (given : h.giveUpRoot x = .ok h') : h'.Backs xs := by
  obtain ⟨o, n, hx, hn, rfl⟩ := exists_of_giveUpRoot given
  intro y mem
  obtain ⟨p, hp, enough⟩ := backs y (List.mem_cons_of_mem x mem)
  rw [get?_put]
  split
  · next e =>
    subst e
    rw [hx, Option.some.injEq] at hp
    subst hp
    rw [List.count_cons_self] at enough
    refine ⟨_, rfl, ?_⟩
    show xs.count x ≤ n
    omega
  · next ne =>
    rw [List.count_cons_of_ne ne] at enough
    exact ⟨p, hp, enough⟩

/-- Where the counting law holds, counts follow from what holds references. -/
theorem unmarked_of_core (C₁ : h₁.Consistent) (C₂ : h₂.Consistent)
    (same : ∀ x, (h₂.get? x).map Object.core = (h₁.get? x).map Object.core) (x : ObjectId) :
    (h₂.get? x).map Object.unmarked = (h₁.get? x).map Object.unmarked := by
  have factor (h : Heap) (r : ObjectId) :
      h.refs r = ((h.get? r).map Object.core).elim [] (·.references) := by
    unfold Heap.refs
    cases h.get? r <;> rfl
  have refs (r : ObjectId) : h₂.refs r = h₁.refs r := by
    rw [factor h₂, same, ← factor h₁]
  cases hx : h₁.get? x with
  | none =>
    have e := same x
    rw [hx, Option.map_none, Option.map_eq_none_iff] at e
    rw [e]
  | some o =>
    have e := same x
    rw [hx, Option.map_some, Option.map_eq_some_iff] at e
    obtain ⟨p, hp, core⟩ := e
    have root : p.rootCount = o.rootCount := congrArg (·.rootCount) core
    have count : p.strongCount = o.strongCount := by
      rw [C₁.count hx, C₂.count hp, root, inEdges_congr refs]
    have freeing : p.freeing = o.freeing := by
      rw [C₁.settled hx, C₂.settled hp]
    rw [hp, Option.map_some, Option.map_some, Object.eq_of_core_eq core, count, freeing]
    rfl

end Heap

namespace Machine

variable {dead dead' later xs : List ObjectId} {s s' s₁ s₂ : Machine} {x : ObjectId}
  {h h' : Heap}

theorem Buries.withHeap (buries : s.Buries dead s')
    (filing : ∀ x, h.filing x = s.memory.heap.filing x) (freed : h.freed = s.memory.heap.freed)
    (filing' : ∀ x, h'.filing x = s'.memory.heap.filing x)
    (freed' : h'.freed = s'.memory.heap.freed) :
    (s.withHeap h).Buries dead (s'.withHeap h') where
  journal := buries.journal
  freed := by
    rw [withHeap_heap, withHeap_heap, freed, freed']
    exact buries.freed
  nodup := buries.nodup
  live x mem := by
    rw [withHeap_heap, filing]
    exact buries.live x mem
  filing x := by
    rw [withHeap_heap, withHeap_heap, filing, filing']
    exact buries.filing x
  collector := buries.collector
  tracker c c' hc hc' := by
    have struck := buries.tracker c c' hc hc'
    exact struck.congr filing

/-- Those who have died decide what the collector knows. -/
theorem Buries.tracker_eq (one : s.Buries dead s₁) (two : s.Buries dead' s₂)
    (same : dead.Perm dead') :
    s₁.memory.collector.map (·.tracker) = s₂.memory.collector.map (·.tracker) := by
  have present := one.collector.trans two.collector.symm
  cases h₁ : s₁.memory.collector with
  | none =>
    rw [h₁, Option.isSome_none, eq_comm, Option.isSome_eq_false_iff, Option.isNone_iff_eq_none]
      at present
    rw [present]
  | some c₁ =>
    have present' := one.collector
    rw [h₁, Option.isSome_some, eq_comm, Option.isSome_iff_exists] at present present'
    obtain ⟨c₂, h₂⟩ := present
    obtain ⟨c, hc⟩ := present'
    have struck := (one.tracker c c₁ hc h₁).unique (two.tracker c c₂ hc h₂) same
    rw [h₂, Option.map_some, Option.map_some, struck]

/-- While objects are dropped, those that the host still holds stay. -/
theorem Drops.backs (drops : s.Drops dead s') (backs : s.memory.heap.Backs xs) :
    s'.memory.heap.Backs xs := by
  intro x mem
  obtain ⟨o, ho, enough⟩ := backs x mem
  have positive : 0 < xs.count x := List.count_pos_iff.mpr mem
  have spared : x ∉ dead := by
    rw [drops.mem_iff_doomed]
    rintro (mem | ⟨ho', root, -⟩)
    · cases mem
    · rw [ho, Option.some.injEq] at ho'
      subst ho'
      omega
  obtain ⟨p, hp⟩ := (drops.live_iff x).mpr ⟨⟨o, ho⟩, spared⟩
  have root : p.rootCount = o.rootCount := congrArg (·.rootCount) (drops.core_eq ho hp)
  exact ⟨p, hp, root ▸ enough⟩

theorem Drops.unhooked (drops : s.Drops dead s')
    (unhooked : ∀ x o, s.memory.heap.get? x = some o → o.pendingFinalizer? = none) (x : ObjectId)
    (p : Object) (hp : s'.memory.heap.get? x = some p) : p.pendingFinalizer? = none := by
  obtain ⟨⟨o, ho⟩, -⟩ := (drops.live_iff x).mp ⟨p, hp⟩
  have same : p.core.pendingFinalizer? = o.core.pendingFinalizer? :=
    congrArg Object.pendingFinalizer? (drops.core_eq ho hp)
  exact Eq.trans same (unhooked x o ho)

theorem Drops.map_core (drops : s.Drops dead s') (x : ObjectId) :
    (s'.memory.heap.get? x).map Object.core =
      if x ∈ dead then none else (s.memory.heap.get? x).map Object.core := by
  cases hp : s'.memory.heap.get? x with
  | none =>
    split
    · rfl
    · next spared =>
      cases ho : s.memory.heap.get? x with
      | none => rfl
      | some o => exact absurd (drops.toBuries.mem_iff.mpr ⟨⟨o, ho⟩, hp⟩) spared
  | some p =>
    obtain ⟨⟨o, ho⟩, spared⟩ := (drops.live_iff x).mp ⟨p, hp⟩
    rw [if_neg spared, ho, Option.map_some, Option.map_some, drops.core_eq ho hp]

/-- Dropping leaves two machines with the same heap, but for notes, if it leaves the same
objects. -/
theorem Drops.unmarked (one : s.Drops dead s₁) (two : s.Drops dead' s₂) (same : dead.Perm dead') :
    s₁.memory.heap.Unmarked s₂.memory.heap where
  nextId := two.remnant.nextId.trans one.remnant.nextId.symm
  freed := by
    rw [one.freed, two.freed, same.length_eq]
  objects := by
    refine Heap.unmarked_of_core one.consistent two.consistent fun x => ?_
    rw [one.map_core, two.map_core]
    simp only [same.mem_iff]

end Machine

namespace Host

variable {s : Machine} {xs ys : List ObjectId}

/-- Releasing one object after the other drops what has to go when the host gives up all these
references at once. -/
theorem releases_drop (hooks : Hooks) (C : s.memory.heap.Consistent) (K : s.memory.heap.Keyed)
    (unhooked : ∀ x o, s.memory.heap.get? x = some o → o.pendingFinalizer? = none)
    (backs : s.memory.heap.Backs xs) :
    ∃ s' dead, xs.forM (release hooks) s = .ok () s' ∧
      (s.withHeap (s.memory.heap.disclaim xs)).Drops dead s' := by
  induction xs generalizing s with
  | nil =>
    refine ⟨s, [], rfl, ?_⟩
    rw [Heap.disclaim_nil]
    exact ⟨.refl s, .refl _ _, C, K⟩
  | cons x xs ih =>
    obtain ⟨o, ho, enough⟩ := backs x List.mem_cons_self
    rw [List.count_cons_self] at enough
    obtain ⟨n, hn⟩ := Nat.exists_eq_add_one_of_ne_zero (n := o.rootCount) (by omega)
    have given := Heap.giveUpRoot_of_get? ho hn
    obtain ⟨s₁, dead, ran, first⟩ := release_drops hooks C K unhooked given
    obtain ⟨s', later, run, rest⟩ := ih first.consistent first.keyed
      (first.unhooked (Heap.unhooked_of_map (Heap.map_get?_giveUpRoot given fun _ _ => rfl)
        unhooked))
      (first.backs (backs.tail given))
    refine ⟨s', later ++ dead, ?_, ?_, ?_, rest.consistent, rest.keyed⟩
    · simp only [List.forM, Act.bind_apply, ran, run]
    · rw [Heap.disclaim_cons given]
      exact (first.toBuries.withHeap (Heap.filing_disclaim _ xs) rfl (Heap.filing_disclaim _ xs)
        rfl).trans rest.toBuries
    · rw [Heap.disclaim_cons given]
      exact (first.remnant.disclaim xs).trans rest.remnant

/-- Releases of objects that the host holds as often as they are listed may be done in any order:
all of them succeed and lead to the same objects with the same counts, to the same number of freed
ones, and to the same books of the collector, if there is one. -/
theorem releases_perm (hooks : Hooks) (C : s.memory.heap.Consistent) (K : s.memory.heap.Keyed)
    (unhooked : ∀ x o, s.memory.heap.get? x = some o → o.pendingFinalizer? = none)
    (backs : s.memory.heap.Backs xs) (perm : ys.Perm xs) :
    ∃ s₁ s₂, xs.forM (release hooks) s = .ok () s₁ ∧ ys.forM (release hooks) s = .ok () s₂ ∧
      s₁.memory.heap.Unmarked s₂.memory.heap ∧
      s₁.memory.collector.map (·.tracker) = s₂.memory.collector.map (·.tracker) := by
  obtain ⟨s₁, dead, run, one⟩ := releases_drop hooks C K unhooked backs
  obtain ⟨s₂, dead', run', two⟩ := releases_drop hooks C K unhooked (backs.perm perm)
  rw [Heap.disclaim_perm _ perm] at two
  have same : dead.Perm dead' := by
    rw [List.perm_ext_iff_of_nodup one.nodup two.nodup]
    intro x
    rw [one.mem_iff_doomed, two.mem_iff_doomed]
  exact ⟨s₁, s₂, run, run', one.unmarked two same, one.tracker_eq two.toBuries same⟩

/-- The host holds the first container twice and three others once. The first two refer to the third
one, which refers to itself and to the fourth one. -/
def shared : Machine :=
  (({} : Machine).performAll [
    .raw (.attach {}), .call (.allocateMany .container 4), .call (.retain (.id 1)),
    .call (.addEdge (.id 1) (.id 3)), .call (.addEdge (.id 2) (.id 3)),
    .call (.addEdge (.id 2) (.id 3)), .call (.addEdge (.id 3) (.id 3)),
    .call (.addEdge (.id 3) (.id 4)), .call (.addEdge (.id 2) (.id 4))]).2

theorem settled_shared : shared.memory.Settled := by
  have run : Attained shared := .performAll (.start none rfl) (by decide +kernel)
  exact run.settled

theorem unhooked_shared (x : ObjectId) (o : Object) (hx : shared.memory.heap.get? x = some o) :
    o.pendingFinalizer? = none := by
  have all : shared.memory.heap.toList.all (·.pendingFinalizer?.isNone) = true := by
    decide +kernel
  exact Option.isNone_iff_eq_none.mp (List.all_eq_true.mp all o (Heap.mem_toList.mpr ⟨x, hx⟩))

theorem backs_shared : shared.memory.heap.Backs [1, 2, 1, 3] := by
  intro x mem
  have all : [1, 2, 1, 3].all (fun x => (shared.memory.heap.get? x).any fun o =>
      decide ([1, 2, 1, 3].count x ≤ o.rootCount)) = true := by decide +kernel
  obtain ⟨o, ho, enough⟩ := (Option.any_eq_true _ _).mp (List.all_eq_true.mp all x mem)
  exact ⟨o, ho, of_decide_eq_true enough⟩

theorem releases_perm_shared :
    ∃ s₁ s₂, [1, 2, 1, 3].forM (release ⟨⟨0, fun _ _ => pure ()⟩, none⟩) shared = .ok () s₁ ∧
      [3, 1, 2, 1].forM (release ⟨⟨0, fun _ _ => pure ()⟩, none⟩) shared = .ok () s₂ ∧
      s₁.memory.heap.Unmarked s₂.memory.heap ∧
      s₁.memory.collector.map (·.tracker) = s₂.memory.collector.map (·.tracker) ∧
      s₁.memory.heap.toList.map (fun o => (o.id, o.strongCount)) = [(3, 1), (4, 2)] := by
  obtain ⟨s₁, s₂, run, run', same, books⟩ := releases_perm
    ⟨⟨0, fun _ _ => pure ()⟩, none⟩ settled_shared.consistent
    settled_shared.balanced.isKeyed unhooked_shared backs_shared
    (show [3, 1, 2, 1].Perm [1, 2, 1, 3] by decide)
  obtain ⟨⟨⟩, s', ran, left⟩ := Act.exists_of_view? (show
    Act.view? ([1, 2, 1, 3].forM (release ⟨⟨0, fun _ _ => pure ()⟩, none⟩)) shared
      (·.memory.heap.toList.map fun o => (o.id, o.strongCount)) = some [(3, 1), (4, 2)] by
    decide +kernel)
  cases run.symm.trans ran
  exact ⟨s₁, s₂, run, run', same, books, left⟩

end Host

end Reclaim
