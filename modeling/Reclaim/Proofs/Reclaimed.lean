import Reclaim.Proofs.FullCollection
import Reclaim.Proofs.PartialCollection

/-!
# What a collection counts

Without hooks a pass over some generations answers with the number of containers in these
generations that nothing from outside of them supports. All of them die, and the statistics grow by
their number. Containers die besides that are not counted: those of an older generation, or
supported ones, that garbage alone kept alive go when the references that lead out of the garbage
are given back (`Machine.Watched.collect_counts`). So the answer is the number of containers that
have died just when nothing else hung on the garbage. In a pass over all generations nothing else
can (`Machine.Watched.full_collection_counts`); in one over the youngest generation of
`Machine.fostered` something does.
-/

set_option autoImplicit false

namespace Reclaim

open Machine

variable {s s' : Machine} {x : ObjectId}

namespace Cycles

variable {xs : List ObjectId} {options : PassOptions}

/-- A collection that no finalizer interferes with, and that discards its garbage, takes out the
containers that nothing from outside of the candidates supports, and only what dies with them. -/
theorem collect_remnant (C : s.memory.heap.Consistent) (K : s.memory.heap.Keyed)
    (unhooked : ∀ x o, s.memory.heap.get? x = some o → o.pendingFinalizer? = none)
    (nodup : xs.Nodup) (discards : options.saveGarbage = false) (fin : Finalization) (g : Int) :
    ∃ r s', collect fin g xs options s = .ok r s' ∧ r.resurrected = [] ∧ r.collected.Nodup ∧
      (∀ x, x ∈ r.collected ↔ x ∈ containers s.memory.heap xs ∧
        ¬ s.memory.heap.Supported (containers s.memory.heap xs) x) ∧
      s.memory.heap.Remnant r.collected s'.memory.heap ∧ s'.memory.heap.Consistent ∧
      ∀ x ∈ r.collected, s'.memory.heap.get? x = none := by
  classical
  rw [← members_eq_containers C]
  have distinct : (members s.memory.heap xs).Nodup := nodup.filter _
  let garbage := (members s.memory.heap xs).filter
    (¬ Analysis.Held s.memory.heap (members s.memory.heap xs) ·)
  have A := At.sweeping (C.balanced K) C.idle unhooked garbage
  obtain ⟨k⟩ := collect_course (fin.sound_zero _ _) A (Nat.le_refl 0) nodup (fun x mem unheld =>
    List.mem_filter.mpr ⟨mem, decide_eq_true unheld⟩) g options fun saves => by
      rw [discards] at saves
      cases saves
  obtain ⟨-, swept, collected, resurrected⟩ := k.quiet A nodup fun x _ => unhooked x
  have unreachable : k.report.collected = garbage :=
    collected.trans (k.parted.unreachable_eq distinct)
  refine ⟨k.report, k.after, k.collect_eq, resurrected, ?_, fun x => ?_, ?_,
    k.sweeps.there.consistent, fun x hx => ?_⟩
  · rw [unreachable]
    exact distinct.filter _
  · rw [unreachable, List.mem_filter, decide_eq_true_eq,
      Analysis.held_iff_supported (C.balanced K) distinct fun _ _ => rfl]
  · rw [unreachable]
    exact Steps.remnant k.leads.steps A.sound (.refl _ _)
  · exact k.gone discards x (by rwa [swept, ← collected])

end Cycles

/-- The containers that live in a heap and not in a later one. -/
def Heap.lost (h h' : Heap) : Set ObjectId :=
  {x | (∃ o, h.get? x = some o ∧ o.kind = .container) ∧ h'.get? x = none}

theorem Heap.finite_lost (h h' : Heap) : (h.lost h').Finite := by
  apply h.live.finite_toSet.subset
  rintro x ⟨⟨o, ho, -⟩, -⟩
  exact mem_live.mpr ⟨o, ho⟩

/-- A list of lost containers has their number just if it lists them all. -/
theorem Heap.length_eq_ncard_lost {h h' : Heap} {xs : List ObjectId} (nodup : xs.Nodup)
    (sub : ∀ x ∈ xs, x ∈ h.lost h') :
    xs.length = (h.lost h').ncard ↔ ∀ x ∈ h.lost h', x ∈ xs := by
  have size : xs.length = (xs.toFinset : Set ObjectId).ncard := by
    rw [Set.ncard_coe_finset, List.toFinset_card_of_nodup nodup]
  have listed : (xs.toFinset : Set ObjectId) ⊆ h.lost h' := by
    intro x hx
    exact sub x (List.mem_toFinset.mp hx)
  rw [size]
  constructor
  · intro same x hx
    rw [← Set.eq_of_subset_of_ncard_le listed same.ge (finite_lost h h'), Finset.mem_coe] at hx
    exact List.mem_toFinset.mp hx
  · intro all
    apply congrArg Set.ncard (listed.antisymm _)
    intro x hx
    exact List.mem_toFinset.mpr (all x hx)

/-- A pass that has nobody to tell and discards its garbage enters into the books what it has
collected, and only what was kept alive by that dies with it. -/
theorem Pass.Course.discards {n : Nat} {hooks : PassHooks} {g : Generation} {c : Collector}
    (k : Course .idle Loose.none (fun _ => False) hooks g s) (H : hooks.Sound .idle n)
    (hc : s.memory.collector = some c) (untold : c.callbacks = [])
    (off : c.debug.has .saveAll = false)
    (unhooked : ∀ x o, s.memory.heap.get? x = some o → o.pendingFinalizer? = none) :
    ∃ garbage : List ObjectId, garbage.Nodup ∧
      (∀ x, x ∈ garbage ↔ x ∈ Cycles.containers s.memory.heap (c.tracker.candidates g) ∧
        ¬ s.memory.heap.Supported (Cycles.containers s.memory.heap (c.tracker.candidates g)) x) ∧
      k.outcome.collected = garbage.length ∧ k.outcome.resurrected = [] ∧
      k.ended.memory.books? = s.memory.books?.map (·.add g garbage.length 0) ∧
      ∀ x, (∃ p, k.ended.memory.heap.get? x = some p) ↔
        (∃ o, s.memory.heap.get? x = some o) ∧ ¬ s.memory.heap.Doomed garbage x := by
  -- nobody is told that the pass starts, so it collects in the memory that it begins with
  have opened := (k.opens_quietly c hc untold).aside.memory
  obtain rfl : c = k.collector := Option.some.inj (hc.symm.trans (opened ▸ k.collector_eq))
  rw [← opened] at unhooked ⊢
  have A := k.opens.there
  obtain ⟨r, s₁, run, resurrected, nodup, mem, remnant, consistent, gone⟩ :=
    Cycles.collect_remnant A.consistent A.sound.balanced.isKeyed unhooked (k.nodup_candidates H)
      (show (options k.collector.debug).saveGarbage = false from off) hooks.finalization g.val
  obtain ⟨rfl, rfl⟩ : r = k.collection.report ∧ s₁ = k.collection.after := by
    have same := run.symm.trans k.collection.collect_eq
    injection same with report after
    exact ⟨report, after⟩
  -- while it collects the books stay as they are, and callbacks are not registered
  have books := k.collection.leads.conduct.books
  obtain ⟨c', hc'⟩ := k.collects.exists_collector hc
  have untold' : c'.callbacks = [] := List.eq_nil_iff_forall_not_mem.mpr fun cb hcb =>
    k.collects.there.sound.within.callbacks trivial hc' hcb
  have ended := k.closes_quietly c' hc' untold'
  refine ⟨k.collection.report.collected, nodup, mem, k.collected, k.resurrected.trans resurrected,
    ?_, fun x => ?_⟩
  · rw [ended, Memory.books?_book hc', resurrected, books]
    rfl
  · rw [← remnant.live_iff consistent gone, ended, Memory.get?_book, ← Option.isSome_iff_exists,
      Option.isSome_map, Option.isSome_iff_exists]

namespace Machine

/-- A pass that answers a call, without hooks: what it counts is what it has collected, and what has
died is what was collected and what only that kept alive. -/
theorem Watched.pass (run : Watched s) {c : Collector} (hc : s.memory.collector = some c)
    (off : c.debug.has .saveAll = false) (g : Generation) :
    ∃ (garbage : List ObjectId) (c' : Collector), garbage.Nodup ∧
      (∀ x, x ∈ garbage ↔ x ∈ Cycles.containers s.memory.heap (c.tracker.candidates g) ∧
        ¬ s.memory.heap.Supported (Cycles.containers s.memory.heap (c.tracker.candidates g)) x) ∧
      (s.perform (.call (.collect g.val))).1.outcome = .ok (.nat garbage.length) ∧
      (s.perform (.call (.collect g.val))).2.memory.collector = some c' ∧
      c'.books = c.books.add g garbage.length 0 ∧
      ∀ x, (∃ p, (s.perform (.call (.collect g.val))).2.memory.heap.get? x = some p) ↔
        (∃ o, s.memory.heap.get? x = some o) ∧ ¬ s.memory.heap.Doomed garbage x := by
  obtain ⟨A, callbacks, unhooked⟩ := run.memory.unattended hc off
  have H : (s.hooksFor (.call (.collect g.val))).Sound .idle false _ :=
    Hooks.outside_sound .idle trivial _
  obtain ⟨pass, hp, P⟩ := H.pass rfl (.inl rfl)
  -- between the marks of its beginning and its end, the pass takes its course
  have began := A.mark hc true
  have marked : (s.forget.mapCollector ({ · with collecting := true })).memory.collector =
      some { c with collecting := true } := congrArg (Option.map _) hc
  obtain ⟨k⟩ := Pass.body_course P began.there (Nat.zero_le _) marked g
  obtain ⟨garbage, nodup, mem, count, resurrected, books, live⟩ :=
    k.discards P marked callbacks off unhooked
  obtain ⟨c', hc'⟩ := k.leads.exists_collector marked
  have ended : (k.ended.mapCollector ({ · with collecting := false })).memory.collector =
      some { c' with collecting := false } := congrArg (Option.map _) hc'
  rw [perform_collect hc (A.collecting_eq hc) hp (Pass.run_of_body k.body_eq) ended resurrected,
    count]
  refine ⟨garbage, _, nodup, mem, rfl, ended, ?_, live⟩
  rw [Memory.books?, hc', Memory.books?, marked] at books
  exact Option.some.inj books

/-- A collection answers with the number of containers in the generations it looks at that nothing
from outside of them supports, and the books grow by it. These containers die, but so do those that
only they kept alive: the answer is the number of containers that have died just if none of the
latter is left out of it. -/
theorem Watched.collect_counts (run : Watched s) {c : Collector}
    (hc : s.memory.collector = some c) (off : c.debug.has .saveAll = false) (g : Generation)
    {record : Record} (performed : s.perform (.call (.collect g.val)) = (record, s')) :
    ∃ (garbage : List ObjectId) (c' : Collector), garbage.Nodup ∧
      (∀ x, x ∈ garbage ↔ x ∈ Cycles.containers s.memory.heap (c.tracker.candidates g) ∧
        ¬ s.memory.heap.Supported (Cycles.containers s.memory.heap (c.tracker.candidates g)) x) ∧
      record.outcome = .ok (.nat garbage.length) ∧ s'.memory.collector = some c' ∧
      c'.books = c.books.add g garbage.length 0 ∧
      (∀ x, x ∈ s.memory.heap.lost s'.memory.heap ↔
        (∃ o, s.memory.heap.get? x = some o ∧ o.kind = .container) ∧
          s.memory.heap.Doomed garbage x) ∧
      (∀ x ∈ garbage, x ∈ s.memory.heap.lost s'.memory.heap) ∧
      (garbage.length = (s.memory.heap.lost s'.memory.heap).ncard ↔
        ∀ x ∈ s.memory.heap.lost s'.memory.heap, x ∈ garbage) := by
  obtain ⟨garbage, c', nodup, mem, outcome, collector, books, live⟩ := run.pass hc off g
  rw [performed] at outcome collector live
  -- what has died is what was doomed
  have lost (x : ObjectId) : x ∈ s.memory.heap.lost s'.memory.heap ↔
      (∃ o, s.memory.heap.get? x = some o ∧ o.kind = .container) ∧
        s.memory.heap.Doomed garbage x := by
    constructor
    · rintro ⟨⟨o, ho, kind⟩, dead⟩
      refine ⟨⟨o, ho, kind⟩, ?_⟩
      by_contra spared
      obtain ⟨p, hp⟩ := (live x).mpr ⟨⟨o, ho⟩, spared⟩
      cases dead.symm.trans hp
    · rintro ⟨container, doomed⟩
      refine ⟨container, Option.eq_none_iff_forall_not_mem.mpr fun p hp => ?_⟩
      exact ((live x).mp ⟨p, hp⟩).2 doomed
  have sub (x : ObjectId) (hx : x ∈ garbage) : x ∈ s.memory.heap.lost s'.memory.heap := by
    refine (lost x).mpr ⟨?_, .garbage hx⟩
    have container := (List.mem_filter.mp ((mem x).mp hx).1).2
    obtain ⟨o, ho, kind⟩ := (Option.any_eq_true _ _).mp container
    exact ⟨o, ho, of_decide_eq_true kind⟩
  exact ⟨garbage, c', nodup, mem, outcome, collector, books, lost, sub,
    Heap.length_eq_ncard_lost nodup sub⟩

/-- A pass over all generations counts every container that dies. -/
theorem Watched.full_collection_counts (run : Watched s) {c : Collector}
    (hc : s.memory.collector = some c) (off : c.debug.has .saveAll = false) {record : Record}
    (performed : s.perform (.call (.collect 2)) = (record, s')) :
    record.outcome = .ok (.nat (s.memory.heap.lost s'.memory.heap).ncard) := by
  obtain ⟨garbage, nodup, mem, outcome, -, gone⟩ := run.memory.collect hc off
  have live (x : ObjectId) := run.memory.collect_live (x := x) hc off
  rw [performed] at outcome gone live
  have counted : garbage.length = (s.memory.heap.lost s'.memory.heap).ncard := by
    refine (Heap.length_eq_ncard_lost nodup fun x hx => ⟨((mem x).mp hx).1, gone x hx⟩).mpr ?_
    rintro x ⟨container, dead⟩
    refine (mem x).mpr ⟨container, fun reach => ?_⟩
    obtain ⟨p, hp⟩ := (live x).mpr reach
    cases dead.symm.trans hp
  rw [outcome, counted]

/-- A container that has survived a pass, and a younger one that refers to itself and to the older
one. The host has let go of both. -/
def fostered : Machine :=
  ((({} : Machine).perform (.raw (.attach {}))).2.performAll [
    .call (.allocate .container "node"), .call (.collect 0),
    .call (.allocate .container "node"), .call (.addEdge (.id 2) (.id 2)),
    .call (.addEdge (.id 2) (.id 1)), .call (.release (.id 1)), .call (.release (.id 2))]).2

example : Watched fostered :=
  Supervised.performAll (.attach {} (.start none rfl) Heap.get?_empty) (by rfl)

/-- A pass over the youngest generation frees both and counts one of them. -/
example :
    fostered.memory.heap.toList.map (fun o => (o.id, o.kind)) =
        [(1, .container), (2, .container)] ∧
      (match (fostered.perform (.call (.collect 0))).1.outcome with
        | .ok (.nat count) => some count
        | _ => none) = some 1 ∧
      (fostered.perform (.call (.collect 0))).2.memory.heap.toList.map (·.id) = [] := by
  decide +kernel

end Machine

end Reclaim
