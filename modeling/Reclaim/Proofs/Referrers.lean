import Reclaim.Proofs.Ages

/-!
# Referrers account for all references

A watcher that asks who refers to an object is told by the collector, which looks through the
containers that it tracks. If it was there before the first object, the answer is complete: between
operations the referrers of a live object are just the live objects that list it among their
referents, and together with the host they account for its count
(`Machine.Tended.referrers_account`). Three views meet there: what the tracker files, what objects
refer to, and what is counted.
-/

set_option autoImplicit false

namespace Reclaim

namespace Heap

variable {h : Heap} {x : ObjectId} {refs : List ObjectId}

/-- The referents of an object, asked for, are its references. -/
theorem referents_eq_ok_iff :
    h.referents x = .ok refs ↔ ∃ o, h.get? x = some o ∧ o.references = refs := by
  unfold referents Heap.get
  cases h.get? x with
  | none => simp [bind, Except.bind]
  | some o => simp [bind, Except.bind, pure, Except.pure]

end Heap

namespace Memory

variable {m : Memory} {c : Collector} {x r : ObjectId}

/-- Referrers are listed by ascending handle, each of them once. -/
theorem ascending_referrers (files : c.tracker.Files m.heap) (x : ObjectId) :
    (m.referrers c x).Pairwise (· < ·) :=
  (files.ascending_candidates .oldest).filter _

/-- When all containers are tracked, the referrers of an object are the objects that refer to it. -/
theorem mem_referrers (C : m.heap.Consistent) (all : c.tracker.FilesAll m.heap) :
    r ∈ m.referrers c x ↔ x ∈ m.heap.refs r := by
  rw [referrers, List.mem_filter]
  constructor
  · rintro ⟨-, refers⟩
    obtain ⟨o, ho, refers⟩ := (Option.any_eq_true _ _).mp refers
    rw [Heap.refs_of_get? ho]
    exact of_decide_eq_true refers
  · intro refers
    -- only containers refer to anything, and they are tracked
    obtain ⟨o, ho, container⟩ := C.container_of_mem_refs refers
    rw [Heap.refs_of_get? ho] at refers
    refine ⟨all.mem_candidates_oldest ho container, ?_⟩
    rw [ho, Option.any_some]
    exact decide_eq_true refers

end Memory

namespace Machine

variable {s : Machine} {c : Collector}

/-- Introspection accounts for every reference. In every run of a host, watched by a collector from
an empty heap on, the referrers of a live object are, whenever an operation has come to its end, the
live objects that have it among their referents, by ascending handle; and its count is the number of
references of the host and of these referrers, each as often as it refers to the object. What is
dead has no referrers. -/
theorem Tended.referrers_account (run : Tended s) (hc : s.memory.collector = some c) :
    (∀ x o, s.memory.heap.get? x = some o →
      (s.memory.referrers c x).Pairwise (· < ·) ∧
      (∀ r, r ∈ s.memory.referrers c x ↔
        ∃ refs, s.memory.heap.referents r = .ok refs ∧ x ∈ refs) ∧
      o.strongCount = o.rootCount + ((s.memory.referrers c x).map fun r =>
        ((s.memory.heap.referents r).toOption.getD []).count x).sum) ∧
    ∀ x, s.memory.heap.get? x = none → s.memory.referrers c x = [] := by
  obtain ⟨S, F⟩ := run.settled
  have C := S.consistent
  have ascending (x : ObjectId) := Memory.ascending_referrers (S.files hc) x
  have mem (x r : ObjectId) := Memory.mem_referrers (x := x) (r := r) C (F hc)
  refine ⟨fun x o ho => ⟨ascending x, fun r => ?_, ?_⟩, fun x dead => ?_⟩
  · rw [mem]
    constructor
    · intro refers
      obtain ⟨p, hp, refers⟩ := Heap.isSome_of_mem_refs refers
      exact ⟨p.references, Heap.referents_eq_ok_iff.mpr ⟨p, hp, rfl⟩, refers⟩
    · rintro ⟨refs, answer, refers⟩
      obtain ⟨p, hp, rfl⟩ := Heap.referents_eq_ok_iff.mp answer
      rwa [Heap.refs_of_get? hp]
  · have nodup : (s.memory.referrers c x).Nodup := (ascending x).imp Nat.ne_of_lt
    have all := Heap.inEdges_eq_inEdgesFrom nodup fun r refers => (mem x r).mpr refers
    rw [C.count ho, all, Heap.inEdgesFrom]
    congr 2
    refine List.map_congr_left fun r refers => ?_
    obtain ⟨p, hp, -⟩ := Heap.isSome_of_mem_refs ((mem x r).mp refers)
    rw [Heap.referents_eq_ok_iff.mpr ⟨p, hp, rfl⟩, Heap.refs_of_get? hp]
    rfl
  · refine List.eq_nil_iff_forall_not_mem.mpr fun r refers => ?_
    obtain ⟨p, hp, refers⟩ := Heap.isSome_of_mem_refs ((mem x r).mp refers)
    obtain ⟨o, ho⟩ := C.closed hp refers
    rw [dead] at ho
    cases ho

/-- The first and the fourth container refer to the second one, the first one three times: the last
reference was added by the finalizer of the third one, which has gone. A pass has been run before
the fourth one was allocated. -/
def crossroads : Machine :=
  (attended.performAll [
    .call (.allocate .container "node"), .call (.allocate .container "node"),
    .call (.allocate .container "node"), .call (.addEdge (.id 1) (.id 2)),
    .call (.addEdge (.id 1) (.id 2)), .call (.addEdge (.id 3) (.id 2)), .call (.collect 0),
    .setFinalizer (.id 3) [⟨.call (.addEdge (.id 1) (.id 2)), false⟩], .call (.release (.id 3)),
    .call (.allocate .container "node"), .call (.addEdge (.id 4) (.id 2))]).2

theorem tended_crossroads : Tended crossroads :=
  Supervised.performAll (.attach {} (.start none rfl) Heap.get?_empty) (by rfl)

theorem referrers_account_crossroads :
    ∃ c o, crossroads.memory.collector = some c ∧ crossroads.memory.heap.get? 2 = some o ∧
      (crossroads.memory.referrers c 2).Pairwise (· < ·) ∧
      o.strongCount = o.rootCount + ((crossroads.memory.referrers c 2).map fun r =>
        ((crossroads.memory.heap.referents r).toOption.getD []).count 2).sum ∧
      crossroads.memory.referrers c 2 = [1, 4] ∧ o.strongCount = 5 ∧
      crossroads.memory.referrers c 3 = [] := by
  have facts : crossroads.memory.collector.any (fun c =>
      crossroads.memory.referrers c 2 = [1, 4] ∧
        (crossroads.memory.heap.get? 2).any (·.strongCount = 5)) = true := by decide +kernel
  obtain ⟨c, hc, facts⟩ := (Option.any_eq_true _ _).mp facts
  obtain ⟨referrers, facts⟩ := of_decide_eq_true facts
  obtain ⟨o, ho, count⟩ := (Option.any_eq_true _ _).mp facts
  obtain ⟨live, dead⟩ := tended_crossroads.referrers_account hc
  obtain ⟨ascending, -, sum⟩ := live 2 o ho
  exact ⟨c, o, hc, ho, ascending, sum, referrers, of_decide_eq_true count,
    dead 3 (by decide +kernel)⟩

end Machine

end Reclaim
