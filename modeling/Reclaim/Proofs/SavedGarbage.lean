import Reclaim.Proofs.Classification

/-!
# Saved garbage

A pass that keeps its garbage lists all that it has collected. It takes a root reference to what is
garbage when the finalizers have run, but members that have died while finalizers ran are collected
as well, and nobody refers to them (`Machine.Attained.pass_saves`). If a handle of a dead object is
listed, the references to saved garbage are not all given back: releasing what is dead is a fault
(`Machine.Attained.clearGarbage_of_dead`).
-/

set_option autoImplicit false

namespace Reclaim

open Machine

variable {sc : Scope} {b : Bool} {n : Nat} {L L' : Loose} {Q : ObjectId → Prop} {s s' t : Machine}
  {fin : Finalization} {xs : List ObjectId} {x : ObjectId} {op : Op}

/-- The garbage that the collector lists. -/
def Memory.saved (m : Memory) : List ObjectId := m.collector.elim [] (·.garbage)

theorem Memory.saved_of_collector {m : Memory} {c : Collector} (hc : m.collector = some c) :
    m.saved = c.garbage := by
  rw [saved, hc, Option.elim_some]

theorem Memory.saved_of_none {m : Memory} (hc : m.collector = none) : m.saved = [] := by
  rw [saved, hc, Option.elim_none]

/-- A collector that is changed but for its list lists what it did. -/
theorem Memory.saved_map {f : Collector → Collector} (same : ∀ c, (f c).garbage = c.garbage)
    (m : Memory) (h : Heap) :
    ({ heap := h, collector := m.collector.map f } : Memory).saved = m.saved := by
  cases hc : m.collector with
  | none => rw [saved_of_none hc, Option.map_none, saved_of_none rfl]
  | some c => rw [saved_of_collector hc, Option.map_some, saved_of_collector rfl, same]

theorem Machine.saved_mapCollector {c : Collector} (hc : s.memory.collector = some c)
    (f : Collector → Collector) : (s.mapCollector f).memory.saved = (f c).garbage :=
  Memory.saved_of_collector (congrArg (Option.map f) hc)

theorem Machine.saved_disowned (s : Machine) :
    (s.mapCollector ({ · with garbage := [] })).memory.saved = [] := by
  cases hc : s.memory.collector with
  | none => exact Memory.saved_of_none (congrArg (Option.map _) hc)
  | some c => exact saved_mapCollector hc _

theorem Memory.saved_book {m : Memory} {c : Collector} (hc : m.collector = some c)
    (g : Generation) (saves : Bool) (r : CycleReport) :
    (m.book c g saves r).saved = m.saved ++ if saves then r.collected else [] := by
  obtain ⟨c', hc', -, -, -, -, listed⟩ := collector_book m c g saves r hc
  rw [saved_of_collector hc', saved_of_collector hc, listed]

/-! ## What a pass lists -/

namespace Cycles

/-- What a collection that keeps its garbage makes of the unreachable members, whose finalizers have
left the heap `finalized`. At its end the heap is `after`. -/
structure Saving (unreachable : List ObjectId) (r : CycleReport) (finalized after : Heap) :
    Prop where
  nodup : unreachable.Nodup
  perm : (r.collected ++ r.resurrected).Perm unreachable
  resurrected_iff : ∀ x, x ∈ r.resurrected ↔
    finalized.Supported (unreachable.filter (finalized.contains ·)) x
  /-- What has died while finalizers ran is collected too, and stays dead. -/
  dead : ∀ x ∈ r.collected, finalized.get? x = none → after.get? x = none
  /-- What has not died is held by the collector, and by nobody else. -/
  held : ∀ x ∈ r.collected, ∀ o, finalized.get? x = some o →
    o.rootCount = 0 ∧ ∃ p, after.get? x = some p ∧ p.rootCount = 1
  others : ∀ x, x ∉ r.collected → (after.get? x).map (·.rootCount) =
    (finalized.get? x).map (·.rootCount)

namespace Course

variable {g : Int} {options : PassOptions} (k : Course sc b L Q fin g xs options s)
include k

/-- What is garbage when the finalizers have run is isolated then. -/
theorem garbage_isolated (nodup : xs.Nodup) : k.finalized.memory.heap.Isolated k.garbage := by
  have left := (k.nodup_unreachable nodup).filter (k.finalized.memory.heap.contains ·)
  refine (k.again.isolated k.finalizes.there.sound.balanced left fun x hx => ?_).1
  exact contains_iff.mp (List.mem_filter.mp hx).2

theorem saving (A : At sc b L Q s) (nodup : xs.Nodup) (saves : options.saveGarbage = true) :
    Saving k.unreachable k.report k.finalized.memory.heap k.after.memory.heap := by
  have retains := k.saved saves
  refine ⟨k.nodup_unreachable nodup, k.perm nodup, fun x => k.resurrected_iff A nodup,
    fun x hx => k.dead_of_freed A (k.unreachable_of_collected hx), fun x hx o ho => ?_,
    fun x hx => ?_⟩
  -- it has not died, so it is garbage, which nobody holds
  · have garbage : x ∈ k.garbage := by
      rw [k.collected] at hx
      rcases List.mem_append.mp hx with dead | garbage
      · have live := contains_iff.mpr ⟨o, ho⟩
        have dead := (List.mem_filter.mp dead).2
        rw [live] at dead
        cases dead
      · exact garbage
    obtain ⟨o', ho', root⟩ := (k.garbage_isolated nodup).unrooted x garbage
    rw [ho, Option.some.injEq] at ho'
    subst ho'
    have same := retains x
    rw [ho, Option.map_some, if_pos garbage, Option.map_eq_some_iff] at same
    obtain ⟨p, hp, e⟩ := same
    have root' : p.rootCount = o.rootCount + 1 := congrArg (·.rootCount) e
    exact ⟨root, p, hp, by omega⟩
  · have garbage : x ∉ k.garbage := fun mem => hx <| by
      rw [k.collected]
      exact List.mem_append_right _ mem
    have same := congrArg (Option.map (·.rootCount)) (retains x)
    simp only [if_neg garbage, Option.map_map] at same
    exact same

end Course

end Cycles

namespace Machine

/-- What passes that keep garbage list, whatever finalizers of a host do. Let a pass begin at any
moment `t` in the course of an operation on an attained machine. It runs to its end; and if it keeps
garbage, it collects each of the candidates that the first analysis finds unreachable, unless that
is resurrected. What has died while the finalizers ran stays dead; what has not is held by the
collector, with one root reference, and by nobody else. Unless a callback interferes, all of it is
listed. -/
theorem Attained.pass_saves (run : Attained s)
    (amid : Steps (s.memory.scope op) (Loose.none, s.forget) (L, t)) {c : Collector}
    (hc : t.memory.collector = some c) (marked : c.collecting = true)
    (enough : t.memory.heap.unspent (s.memory.scope op) ≤ n) (g : Generation) :
    ∃ k : Pass.Trace (Hooks.ofPass n) g t, k.collector.debug.has .saveAll = true →
      Cycles.Saving k.unreachable k.report k.finalized.memory.heap k.collected.memory.heap ∧
      ∀ c', k.collected.memory.collector = some c' → c'.callbacks = [] →
        k.ended.memory.saved = k.collected.memory.saved ++ k.report.collected := by
  have H := Hooks.ofPass_sound (s.memory.scope op) trivial trivial n
  obtain ⟨k⟩ := Pass.body_course H (run.during amid hc marked) enough hc g
  refine ⟨k.trace, fun saves => ⟨?_, fun c' hc' callbacks => ?_⟩⟩
  · exact k.collection.saving k.opens.there.calm (k.nodup_candidates H) saves
  · have saves : (Pass.options k.collector.debug).saveGarbage = true := saves
    show k.ended.memory.saved = k.collection.after.memory.saved ++ k.collection.report.collected
    have listed := Memory.saved_book hc' g true k.collection.report
    rw [k.closes_quietly c' hc' callbacks, saves]
    exact listed

/-! ## Giving the references back -/

/-- A step leaves the list alone, empties it, or adds what a pass has collected. -/
theorem Step.saved_cases (step : Step sc (L, s) (L', s')) :
    s'.memory.saved = s.memory.saved ∨ (sc.may .disown ∧ s'.memory.saved = []) ∨
      ∃ r : CycleReport, sc.passes ∧ sc.saving ∧
        (∀ x ∈ r.collected, x < s.memory.heap.nextId) ∧
        s'.memory.saved = s.memory.saved ++ r.collected := by
  cases step with
  | aside memory _ _ => exact .inl (congrArg Memory.saved memory)
  | note _ | edit _ | finalize _ _ => exact .inl rfl
  | destroy ho _ _ _ run =>
    rw [Memory.exists_of_destroy ho run]
    exact .inl (Memory.saved_map (by intro; rfl) _ _)
  | collecting _ => exact .inl (Memory.saved_map (by intro; rfl) _ _)
  | book g saves r passes collected hc _ =>
    have listed := Memory.saved_book hc g saves r
    cases saves with
    | true =>
      obtain ⟨saving, old⟩ := collected rfl
      exact .inr (.inr ⟨r, passes, saving, old, listed⟩)
    | false => exact .inl (listed.trans (List.append_nil _))
  | allocate _ _ _ =>
    rw [Memory.allocate_eq]
    exact .inl (Memory.saved_map (by intro; rfl) _ _)
  | configure _ hc reconfigured =>
    rw [saved_mapCollector hc, Memory.saved_of_collector hc]
    exact .inl reconfigured.garbage
  | disown may => exact .inr (.inl ⟨may, saved_disowned s⟩)

/-- Where nobody empties the list and no pass that keeps garbage ends, it stays as it is. -/
theorem Steps.saved_eq {a b : Loose × Machine} (unowned : ¬ sc.may .disown)
    (unbooked : ¬ (sc.passes ∧ sc.saving)) (steps : Steps sc a b) :
    b.2.memory.saved = a.2.memory.saved := by
  induction steps with
  | refl => rfl
  | tail _ step ih =>
    rcases step.saved_cases with same | ⟨may, -⟩ | ⟨r, passes, saving, -⟩
    · exact same.trans ih
    · exact absurd may unowned
    · exact absurd ⟨passes, saving⟩ unbooked

/-- Only handles that have been given out are listed. -/
theorem Steps.saved_old {a b : Loose × Machine} (steps : Steps sc a b)
    (old : ∀ x ∈ a.2.memory.saved, x < a.2.memory.heap.nextId) :
    ∀ x ∈ b.2.memory.saved, x < b.2.memory.heap.nextId := by
  induction steps with
  | refl => exact old
  | tail _ step ih =>
    have later := step.later.nextId
    rcases step.saved_cases with same | ⟨-, none⟩ | ⟨r, -, -, young, listed⟩
    · rw [same]
      exact fun x hx => Nat.lt_of_lt_of_le (ih x hx) later
    · rw [none]
      exact fun x hx => absurd hx List.not_mem_nil
    · rw [listed]
      intro x hx
      rcases List.mem_append.mp hx with hx | hx
      · exact Nat.lt_of_lt_of_le (ih x hx) later
      · exact Nat.lt_of_lt_of_le (young x hx) later

/-- A new collector lists nothing. -/
theorem saved_of_fresh {m : Memory}
    (fresh : ∀ c, m.collector = some c → ∃ settings, Collector.start settings = .ok c) :
    m.saved = [] := by
  cases hc : m.collector with
  | none => exact Memory.saved_of_none hc
  | some c =>
    obtain ⟨settings, run⟩ := fresh c hc
    obtain ⟨thresholds, -, run⟩ := Heap.exists_of_bind run
    cases run
    exact Memory.saved_of_collector hc

theorem Attained.saved_old (run : Attained s) : ∀ x ∈ s.memory.saved, x < s.memory.heap.nextId := by
  induction run with
  | start settings? run =>
    obtain ⟨collector, rfl, fresh⟩ := exists_of_start run
    rw [saved_of_fresh fresh]
    exact fun x hx => absurd hx List.not_mem_nil
  | perform before host ih =>
    rcases perform_cases host with host | ⟨collector, fresh, e⟩
    · exact Steps.saved_old (perform_leads_scope before.settled host).steps ih
    · rw [e, saved_of_fresh fresh]
      exact fun x hx => absurd hx List.not_mem_nil

/-- Taking a root reference is refused with the handle of the object. -/
theorem giveUpRoot_error {h : Heap} (B : h.Balanced L) {e : Fault}
    (run : h.giveUpRoot x = .error e) : ∃ reason, e = .invalidReference x reason := by
  cases hx : h.get? x with
  | none =>
    simp only [Heap.giveUpRoot, Heap.get, hx, bind, Except.bind] at run
    cases run
    exact ⟨_, rfl⟩
  | some o =>
    cases root : o.rootCount with
    | zero =>
      simp only [Heap.giveUpRoot, Heap.get_of_get? hx, Object.removeRoot, root, bind,
        Except.bind] at run
      cases run
      exact ⟨_, congrArg (Fault.invalidReference · _) (B.keyed hx).1⟩
    | succ m => cases (Heap.giveUpRoot_of_get? hx root).symm.trans run

/-- Giving back references to several objects, one of which is dead, ends with a fault. -/
theorem releaseAll_of_dead {hooks : Hooks} (H : hooks.Sound sc b n) (may : sc.may .giveUp)
    (A : At sc b L Q s) (hn : s.memory.heap.unspent sc ≤ n) (hx : x ∈ xs)
    (old : x < s.memory.heap.nextId) (dead : s.memory.heap.get? x = none) :
    ∃ y ∈ xs, ∃ reason s',
      xs.forM (Host.release hooks) s = .error (.invalidReference y reason) s' := by
  induction xs generalizing s with
  | nil => cases hx
  | cons y xs ih =>
    cases run : s.memory.heap.giveUpRoot y with
    | error e =>
      obtain ⟨reason, rfl⟩ := giveUpRoot_error A.sound.balanced run
      refine ⟨y, List.mem_cons_self, reason, s, ?_⟩
      simp only [List.forM, Act.bind_apply, Host.release_of_error run]
    | ok h' =>
      -- this one is not the dead one, which stays dead while it is released
      obtain ⟨o, _, ho, -⟩ := Heap.exists_of_giveUpRoot run
      have ne : x ≠ y := by
        rintro rfl
        rw [dead] at ho
        cases ho
      obtain ⟨s₁, run₁, leads⟩ := Host.release_leads H may A hn run
      have later := Steps.later leads.steps
      obtain ⟨z, hz, reason, s', failed⟩ := ih leads.there (Nat.le_trans leads.unspent_le hn)
        ((List.mem_cons.mp hx).resolve_left ne) (Nat.lt_of_lt_of_le old later.nextId)
        (later.dead old dead)
      refine ⟨z, List.mem_cons_of_mem y hz, reason, s', ?_⟩
      simp only [List.forM, Act.bind_apply, run₁, failed]

/-- Saved garbage that is dead cannot be given back. If the collector of an attained machine lists
the handle of a dead object, giving back the references to saved garbage ends with a fault. -/
theorem Attained.clearGarbage_of_dead (run : Attained s) (listed : x ∈ s.memory.saved)
    (dead : s.memory.heap.get? x = none) :
    ∃ y ∈ s.memory.saved, ∃ reason,
      (s.perform (.call .clearGarbage)).1.outcome = .error (.invalidReference y reason) := by
  have old := run.saved_old x listed
  cases hc : s.memory.collector with
  | none =>
    rw [Memory.saved_of_none hc] at listed
    cases listed
  | some c =>
    rw [Memory.saved_of_collector hc] at listed ⊢
    have A := run.begun (.call .clearGarbage)
    have H : (s.hooksFor (.call .clearGarbage)).Sound (s.memory.scope (.call .clearGarbage))
        false _ := Hooks.outside_sound _ trivial _
    -- the list is emptied before anything is released
    obtain ⟨y, hy, reason, s', failed⟩ := releaseAll_of_dead H trivial (A.disown trivial).there
      (s.memory.unspent_le_budget _) listed old dead
    have watched : s.forget.memory.collector = some c := hc
    have performed : Host.perform (s.hooksFor (.call .clearGarbage)) 0 (.call .clearGarbage)
        s.forget = .error (.invalidReference y reason) s' := by
      simp only [Host.perform, Host.call, Host.clearGarbage, Act.bind_apply,
        Act.collector_of_some watched, Act.modifyCollector_apply, failed]
    exact ⟨y, hy, reason, by rw [perform_of_error performed]⟩

/-- A run that leaves the handles of two dead containers in the list of saved garbage: the finalizer
of the first lets go of the second while a pass keeps its garbage. A third container is saved. -/
def bereft : Machine :=
  (performAll {} [.raw (.attach { debug := .saveAll }), .call (.allocate .container "node"),
    .call (.allocate .container "node"), .call (.allocate .container "node"),
    .call (.addEdge (.id 1) (.id 2)), .call (.addEdge (.id 2) (.id 1)),
    .call (.addEdge (.id 3) (.id 3)),
    .setFinalizer (.id 1) [⟨.call (.removeEdge .self (.id 2)), false⟩],
    .call (.release (.id 1)), .call (.release (.id 2)), .call (.release (.id 3)),
    .call (.collect 2)]).2

/-- The reference to the third container is not given back, and the list is gone. -/
theorem clearGarbage_bereft :
    bereft.memory.saved = [1, 2, 3] ∧ bereft.memory.heap.toList.map (·.id) = [3] ∧
      (∃ y ∈ bereft.memory.saved, ∃ reason,
        (bereft.perform (.call .clearGarbage)).1.outcome = .error (.invalidReference y reason)) ∧
      (bereft.perform (.call .clearGarbage)).2.memory.saved = [] ∧
      (bereft.perform (.call .clearGarbage)).2.memory.heap.roots = [3] := by
  have attained : Attained bereft := Attained.performAll (.start none rfl) rfl
  have listed : bereft.memory.saved = [1, 2, 3] := by decide +kernel
  have dead : (bereft.memory.heap.get? 1).isNone = true := by decide +kernel
  have fails := attained.clearGarbage_of_dead (listed ▸ List.mem_cons_self)
    (Option.isNone_iff_eq_none.mp dead)
  exact ⟨listed, by decide +kernel, fails, by decide +kernel, by decide +kernel⟩

end Machine

end Reclaim
