import Reclaim.Proofs.Linking
import Reclaim.Proofs.Promotion
import Reclaim.Proofs.Transparency

/-!
# Keeping garbage postpones its collection

A full collection that keeps its garbage frees nothing. It gives the collector one root reference to
each container that the host does not reach, and nothing else changes but ages
(`Memory.Watched.keep`). `Heap.Hoards` describes such a heap, and there two halves meet. Giving the
references back one by one undoes it: an object that was counted for anything at all is counted for
more than the reference that is given back, so that no cascade starts (`Host.releaseAll_of_hoards`).
The heap is then the one that the collection has found, and the next collection finds the same
garbage again. Ages agree as well, since a full collection makes all containers that it leaves old
(`Memory.Watched.collect_grown`), and atoms never grow older. `Machine.Tended.postpones` puts this
together.
-/

set_option autoImplicit false

namespace Reclaim

open Machine

variable {s s₁ s₂ : Machine} {c c₁ c₂ : Collector} {x : ObjectId} {xs : List ObjectId}

/-! ## Heaps with kept objects -/

namespace Heap

variable {h h' : Heap} {o : Object}

/-- Up to ages, somebody has got one more root reference to each of some objects, and nothing else
has changed. -/
structure Hoards (h : Heap) (xs : List ObjectId) (h' : Heap) : Prop where
  objects : ∀ x, (h'.get? x).map Object.bare =
    (h.get? x).map fun o => (if x ∈ xs then o.addRoot.incRef else o).bare
  nextId : h'.nextId = h.nextId
  freed : h'.freed = h.freed

theorem Hoards.live (H : h.Hoards xs h') : h'.live = h.live := by
  refine live_congr fun x => ?_
  have same := congrArg Option.isSome (H.objects x)
  rwa [Option.isSome_map, Option.isSome_map] at same

/-- If nothing is kept, the heap is the same. -/
theorem Hoards.same (H : h.Hoards [] h') : h.Same h' where
  objects x := by
    have same := H.objects x
    simp only [List.not_mem_nil, if_false] at same
    exact same.symm
  nextId := H.nextId.symm
  freed := H.freed.symm

/-- A kept object has one root reference more than it had. Without that it is as it was. -/
theorem Hoards.giveBack (H : h.Hoards (x :: xs) h') (fresh : x ∉ xs) (hx : h.get? x = some o) :
    ∃ p, h'.get? x = some p ∧ p.rootCount = o.rootCount + 1 ∧ p.strongCount = o.strongCount + 1 ∧
      h.Hoards xs (h'.put x { p with rootCount := o.rootCount, strongCount := o.strongCount }) := by
  have kept := H.objects x
  rw [hx, Option.map_some, if_pos List.mem_cons_self, Option.map_eq_some_iff] at kept
  obtain ⟨p, hp, same⟩ := kept
  refine ⟨p, hp, congrArg (·.rootCount) same, congrArg (·.strongCount) same, fun y => ?_,
    H.nextId, H.freed⟩
  rw [get?_put]
  split
  · next e =>
    subst e
    rw [hx, Option.map_some, Option.map_some, if_neg fresh]
    simp only [Object.bare, Object.addRoot, Object.incRef, Object.mk.injEq] at same ⊢
    simp [same]
  · next ne =>
    rw [H.objects y]
    simp only [List.mem_cons, Ne.symm ne, false_or]

/-- All containers are old. -/
def Grown (h : Heap) : Prop :=
  ∀ x o, h.get? x = some o → o.kind = .container → o.generation = Generation.oldest.val

/-- Where all containers are old and no atom is, ages follow from kinds. -/
theorem Same.filing (same : h.Same h') (grown : h.Grown) (grown' : h'.Grown)
    (ageless : h.AgelessAtoms) (ageless' : h'.AgelessAtoms) (x : ObjectId) :
    h.filing x = h'.filing x := by
  have objects := same.objects x
  unfold Heap.filing
  cases ho : h.get? x with
  | none =>
    rw [ho, Option.map_none, eq_comm, Option.map_eq_none_iff] at objects
    rw [objects, Option.map_none]
  | some o =>
    rw [ho, Option.map_some, eq_comm, Option.map_eq_some_iff] at objects
    obtain ⟨p, hp, e⟩ := objects
    have kind : p.kind = o.kind := congrArg (·.kind) e
    have age : p.generation = o.generation := by
      cases k : o.kind with
      | container => rw [grown x o ho k, grown' x p hp (kind.trans k)]
      | atom => rw [ageless x o ho k, ageless' x p hp (kind.trans k)]
    rw [hp, Option.map_some, Option.map_some, kind, age]

end Heap

namespace Host

variable {h : Heap} (hooks : Hooks)

/-- Giving back the reference to a kept object frees nothing. -/
theorem release_of_hoards (C : h.Consistent) (H : h.Hoards (x :: xs) s.memory.heap)
    (fresh : x ∉ xs) (live : ∃ o, h.get? x = some o) :
    ∃ h', release hooks x s = .ok () (s.withHeap h') ∧ h.Hoards xs h' := by
  obtain ⟨o, ho⟩ := live
  obtain ⟨p, hp, root, count, rest⟩ := H.giveBack fresh ho
  -- it was counted for something before it was kept, so this is not its last reference
  obtain ⟨k, hk⟩ := Nat.exists_eq_succ_of_ne_zero (C.positive ho).ne'
  have given := Heap.giveUpRoot_of_get? hp root
  have there : (s.memory.heap.put x { p with rootCount := o.rootCount }).get? x =
      some { p with rootCount := o.rootCount } := by
    rw [Heap.get?_put, if_pos rfl]
  have more : p.strongCount = k + 2 := by omega
  refine ⟨_, ?_, rest⟩
  rw [release_of_ok given, Release.dropReference_of_more (o := { p with rootCount := o.rootCount })
    there more, withHeap_withHeap, withHeap_heap, Heap.put_put, hk]

/-- When all references to kept objects have been given back, the heap is what it was. -/
theorem releaseAll_of_hoards (C : h.Consistent) (H : h.Hoards xs s.memory.heap) (nodup : xs.Nodup)
    (live : ∀ x ∈ xs, ∃ o, h.get? x = some o) :
    ∃ h', xs.forM (release hooks) s = .ok () (s.withHeap h') ∧ h.Same h' := by
  induction xs generalizing s with
  | nil => exact ⟨s.memory.heap, rfl, H.same⟩
  | cons x xs ih =>
    obtain ⟨fresh, nodup⟩ := List.nodup_cons.mp nodup
    obtain ⟨h₁, run₁, H₁⟩ := release_of_hoards hooks C H fresh (live x List.mem_cons_self)
    obtain ⟨h', run, same⟩ := ih (s := s.withHeap h₁) H₁ nodup fun y hy =>
      live y (List.mem_cons_of_mem x hy)
    refine ⟨h', ?_, same⟩
    simp only [List.forM, Act.bind_apply, run₁, run, withHeap_withHeap]

end Host

/-! ## Operations -/

/-- Nobody takes steps but the library, which may keep what it finds. -/
def Scope.keeping : Scope := { Scope.idle with saving := True, flags := fun _ _ => trivial }

theorem Scope.keeping_not_may {deed : Deed} (other : deed ≠ .collect) : ¬ keeping.may deed :=
  fun may => may.elim other Exists.choose_spec

/-- Without hooks, only the library takes steps while it collects. -/
theorem Memory.Within.keeping {m : Memory} (W : m.Within .hookless) : m.Within .keeping where
  pending hx pending := (W.pending hx pending).2.elim
  callbacks _ {_ _} hc hcb := (W.callbacks trivial hc hcb).elim
  saving _ _ {_} _ _ := trivial

/-- There is nobody to tell about a pass. -/
theorem Machine.At.untold {b : Bool} {Q : ObjectId → Prop} (A : At .keeping b Loose.none Q s)
    (hc : s.memory.collector = some c) : c.callbacks = [] :=
  List.eq_nil_iff_forall_not_mem.mpr fun _ hcb => A.sound.within.callbacks trivial hc hcb

/-- Without hooks, a full collection begins at a sound moment. -/
theorem Memory.Watched.marked (W : s.memory.Watched) (hc : s.memory.collector = some c) :
    At .keeping true Loose.none (fun _ => False)
      (s.forget.mapCollector ({ · with collecting := true })) := by
  have begun : At .keeping false Loose.none (fun _ => False) s.forget :=
    W.settled.at (s := s.forget) W.within.keeping
  exact (begun.mark hc true).there

namespace Machine

/-- Replacing the debug flags does nothing else. -/
theorem perform_setDebug (hc : s.memory.collector = some c) (debug : DebugFlags) :
    (s.perform (.call (.setDebug debug))).1.outcome = .ok .done ∧
      (s.perform (.call (.setDebug debug))).2.memory.heap = s.memory.heap ∧
      (s.perform (.call (.setDebug debug))).2.memory.collector = some { c with debug } := by
  have watched : s.forget.memory.collector = some c := hc
  have performed : Host.perform (s.hooksFor (.call (.setDebug debug))) 0 (.call (.setDebug debug))
      s.forget = .ok .done (s.forget.mapCollector fun _ => { c with debug }) := by
    simp only [Host.perform, Host.call, Host.setDebug, Host.configure, Act.bind_apply,
      Act.collector_of_some watched, Act.ofExcept_ok, Act.modifyCollector_apply, Act.pure_apply]
  rw [perform_of_ok performed]
  exact ⟨rfl, rfl, congrArg (Option.map _) hc⟩

/-- Giving back the references to kept garbage frees nothing, and leaves the heap as it was before
the garbage was kept. -/
theorem perform_clearGarbage_of_hoards {h : Heap} (hc : s.memory.collector = some c)
    (C : h.Consistent) (H : h.Hoards c.garbage s.memory.heap) (nodup : c.garbage.Nodup)
    (live : ∀ x ∈ c.garbage, ∃ o, h.get? x = some o) :
    (s.perform (.call .clearGarbage)).1.outcome = .ok (.nat c.garbage.length) ∧
      h.Same (s.perform (.call .clearGarbage)).2.memory.heap ∧
      (s.perform (.call .clearGarbage)).2.memory.collector = some { c with garbage := [] } := by
  have watched : s.forget.memory.collector = some c := hc
  obtain ⟨h', run, same⟩ := Host.releaseAll_of_hoards (s.hooksFor (.call .clearGarbage)) C
    (s := s.forget.mapCollector ({ · with garbage := [] })) H nodup live
  have performed : Host.perform (s.hooksFor (.call .clearGarbage)) 0 (.call .clearGarbage)
      s.forget = .ok (.nat c.garbage.length)
        ((s.forget.mapCollector ({ · with garbage := [] })).withHeap h') := by
    simp only [Host.perform, Host.call, Host.clearGarbage, Act.bind_apply,
      Act.collector_of_some watched, Act.modifyCollector_apply, run, Act.pure_apply]
  rw [perform_of_ok performed]
  exact ⟨rfl, same, congrArg (Option.map _) hc⟩

/-- The course of a full collection without hooks, in which only the library takes steps. What its
pass collects is what it finds unreachable, and that is entered into the books. -/
structure FullCollection (s : Machine) (c : Collector) where
  budget : Nat
  hooks : PassHooks
  sound : hooks.Sound .keeping budget
  pass : Pass.Course .keeping Loose.none (fun _ => False) hooks .oldest
    (s.forget.mapCollector ({ · with collecting := true }))
  heap_eq : pass.opened.memory.heap = s.memory.heap
  collector_eq : pass.collector = { c with collecting := true }
  finalized : pass.collection.finalized = pass.opened.withHeap pass.collection.marked
  garbage : pass.collection.garbage = pass.collection.unreachable
  collected : pass.collection.report.collected = pass.collection.unreachable
  /-- The collector when the books are kept. -/
  keeper : Collector
  keeper_eq : pass.collection.after.memory.collector = some keeper
  ended : pass.ended.memory = pass.collection.after.memory.book keeper .oldest
    (Pass.options pass.collector.debug).saveGarbage pass.collection.report
  outcome : (s.perform (.call (.collect 2))).1.outcome =
    .ok (.nat pass.collection.unreachable.length)
  after : (s.perform (.call (.collect 2))).2 =
    pass.ended.mapCollector ({ · with collecting := false })

end Machine

/-- A full collection without hooks takes its course. -/
theorem Memory.Watched.fullCollection (W : s.memory.Watched) (hc : s.memory.collector = some c) :
    Nonempty (s.FullCollection c) := by
  have A : At .keeping false Loose.none (fun _ => False) s.forget :=
    W.settled.at (s := s.forget) W.within.keeping
  have H : (s.hooksFor (.call (.collect 2))).Sound .keeping false _ :=
    Hooks.outside_sound .keeping trivial _
  obtain ⟨hooks, hp, P⟩ := H.pass rfl (.inl rfl)
  have marked : (s.forget.mapCollector ({ · with collecting := true })).memory.collector =
      some { c with collecting := true } := congrArg (Option.map _) hc
  obtain ⟨k⟩ := Pass.body_course P (W.marked hc) (Nat.zero_le _) marked .oldest
  -- nobody is told that it starts, so the pass finds what the host has left
  have opened := (k.opens_quietly _ marked ((W.marked hc).untold marked)).aside.memory
  have heap : k.opened.memory.heap = s.memory.heap := by
    rw [opened]
    rfl
  have taken := k.collector_eq
  rw [opened, marked, Option.some.injEq] at taken
  obtain ⟨finalized, garbage, collected, unresurrected⟩ := k.collection.quiet k.opens.there.calm
    (k.nodup_candidates P) fun x _ o hx => by
      cases pending : o.pendingFinalizer? with
      | none => rfl
      | some script => exact (k.opens.there.sound.within.pending hx pending).2.elim
  obtain ⟨keeper, hk⟩ := k.collects.exists_collector marked
  obtain ⟨c', hc'⟩ := k.leads.exists_collector marked
  have performed : s.perform (.call (.collect 2)) = _ :=
    perform_collect (g := .oldest) hc (A.collecting_eq hc) hp (Pass.run_of_body k.body_eq)
      (congrArg (Option.map _) hc') (k.resurrected.trans unresurrected)
  refine ⟨⟨_, hooks, P, k, heap, taken.symm, finalized, garbage, collected, keeper, hk,
    k.closes_quietly keeper hk (k.collects.there.untold hk), ?_, congrArg Prod.snd performed⟩⟩
  rw [performed, k.collected, collected]

namespace Machine.FullCollection

variable (k : s.FullCollection c)
include k

theorem nodup : k.pass.collection.unreachable.Nodup :=
  k.pass.collection.nodup_unreachable (k.pass.nodup_candidates k.sound)

/-- What the pass finds unreachable is what the host does not reach. -/
theorem mem_unreachable (W : s.memory.Watched) (hc : s.memory.collector = some c) (x : ObjectId) :
    x ∈ k.pass.collection.unreachable ↔ x ∈ s.memory.heap.unreached := by
  -- the members are all containers, so those that are not held are those that are not reached
  have members (x : ObjectId) : x ∈ Cycles.members s.memory.heap (c.tracker.candidates .oldest) ↔
      ∃ o, s.memory.heap.get? x = some o ∧ o.kind = .container :=
    W.settled.mem_members W.filesAll hc
  have held : Analysis.Held s.memory.heap
      (Cycles.members s.memory.heap (c.tracker.candidates .oldest)) x ↔ _ :=
    Analysis.held_iff_reachable W.settled.consistent
      (((W.settled.files hc).nodup_candidates .oldest).filter _) members
  have tracker : k.pass.collector.tracker = c.tracker := by rw [k.collector_eq]
  rw [k.pass.collection.parted.mem_unreachable, k.heap_eq, tracker, held, members]
  exact and_congr_right fun member => not_congr (and_iff_right member)

theorem nextId : k.pass.ended.memory.heap.nextId = s.memory.heap.nextId :=
  Steps.nextId (Scope.keeping_not_may nofun) k.pass.leads.steps

theorem saves (keeps : c.debug.has .saveAll = true) :
    (Pass.options k.pass.collector.debug).saveGarbage = true := by
  rw [k.collector_eq]
  exact keeps

/-- If the garbage is kept, nothing else changes but ages. -/
theorem objects (keeps : c.debug.has .saveAll = true) (x : ObjectId) :
    (k.pass.ended.memory.heap.get? x).map Object.bare = (s.memory.heap.get? x).map fun o =>
      (if x ∈ k.pass.collection.unreachable then o.addRoot.incRef else o).bare := by
  have retains := k.pass.collection.saved (k.saves keeps)
  rw [k.finalized, k.garbage] at retains
  have kept := (k.pass.collection.unmarked.retains retains).map_bare x
  rw [k.heap_eq] at kept
  rw [k.ended]
  exact (Memory.map_get?_book (fun _ _ => rfl) _ _ _ _ _ x).trans kept

theorem saved (keeps : c.debug.has .saveAll = true) :
    k.pass.ended.memory.saved = c.garbage ++ k.pass.collection.unreachable := by
  have garbage : k.pass.collector.garbage = c.garbage := by rw [k.collector_eq]
  have unowned : ¬ Scope.keeping.calm.may .disown := Scope.keeping_not_may nofun
  have listed : k.pass.collection.after.memory.saved = k.pass.opened.memory.saved :=
    Steps.saved_eq unowned And.left k.pass.collection.leads.steps
  rw [k.ended, Memory.saved_book k.keeper_eq, if_pos (k.saves keeps), k.collected, listed,
    Memory.saved_of_collector k.pass.collector_eq, garbage]

/-- The containers that the pass leaves are old. -/
theorem grown (W : s.memory.Watched) (hc : s.memory.collector = some c) :
    k.pass.ended.memory.heap.Grown := by
  intro x p hx kind
  obtain ⟨due, booked, c', books, -, promoted⟩ := k.pass.promotes k.sound (W.marked hc)
    (Nat.zero_le _) (congrArg (Option.map _) hc)
  rw [Pass.book_apply k.keeper_eq] at books
  cases books
  rw [k.ended] at hx
  -- it was there when the candidates were taken, and it was one of them
  obtain ⟨o, ho, same⟩ := k.pass.leads.exists_old (Scope.keeping_not_may nofun) (k.ended ▸ hx)
  have candidate := (W.filesAll hc).mem_candidates_oldest ho (same.symm.trans kind)
  obtain ⟨i, le, filed⟩ := (c.tracker.mem_candidates .oldest).mp candidate
  exact (promoted.promoted i le x (k.collector_eq ▸ filed) o (k.heap_eq ▸ ho)
    (W.settled.consistent.settled ho) p hx).2

end Machine.FullCollection

namespace Memory.Watched

/-- A full collection that keeps its garbage frees nothing. The containers that the host does not
reach are listed and kept, and nothing else changes but ages. -/
theorem keep (W : s.memory.Watched) (hc : s.memory.collector = some c)
    (keeps : c.debug.has .saveAll = true) (N : s.memory.heap.Accounts) :
    ∃ (garbage : List ObjectId) (c' : Collector), garbage.Nodup ∧
      (∀ x, x ∈ garbage ↔ x ∈ s.memory.heap.unreached) ∧
      (s.perform (.call (.collect 2))).1.outcome = .ok (.nat garbage.length) ∧
      s.memory.heap.Hoards garbage (s.perform (.call (.collect 2))).2.memory.heap ∧
      (s.perform (.call (.collect 2))).2.memory.collector = some c' ∧
      c'.garbage = c.garbage ++ garbage := by
  obtain ⟨k⟩ := W.fullCollection hc
  have freed : k.pass.ended.memory.heap.freed = s.memory.heap.freed := by
    refine Heap.Accounts.freed_eq N (Steps.accounts k.pass.leads.steps (W.marked hc).sound N)
      k.nextId (Heap.live_congr fun x => ?_)
    have same := congrArg Option.isSome (k.objects keeps x)
    rwa [Option.isSome_map, Option.isSome_map] at same
  obtain ⟨c', hc'⟩ := k.pass.leads.exists_collector (congrArg (Option.map _) hc)
  have saved := k.saved keeps
  rw [Memory.saved_of_collector hc'] at saved
  rw [k.after]
  exact ⟨_, _, k.nodup, k.mem_unreachable W hc, k.outcome, ⟨k.objects keeps, k.nextId, freed⟩,
    congrArg (Option.map _) hc', saved⟩

/-- A full collection makes all containers that it leaves old. -/
theorem collect_grown (W : s.memory.Watched) (hc : s.memory.collector = some c) :
    (s.perform (.call (.collect 2))).2.memory.heap.Grown := by
  obtain ⟨k⟩ := W.fullCollection hc
  rw [k.after]
  exact k.grown W hc

end Memory.Watched

namespace Machine

/-- A machine that no hooks are left on, and whose collector was there before the first object. -/
structure Unhooked (s : Machine) : Prop where
  tended : Tended s
  watched : s.memory.Watched

theorem Tended.unhooked (run : Tended s)
    (unpending : ∀ x o, s.memory.heap.get? x = some o → o.pendingFinalizer? = none)
    (untold : s.callbacks = []) : Unhooked s where
  tended := run
  watched := by
    refine ⟨run.settled.1, ⟨fun {x o script} hx pending => ?_, fun _ {c cb} hc hcb => ?_,
      fun _ _ {_} _ _ => trivial⟩, run.settled.2⟩
    · rw [unpending x o hx] at pending
      cases pending
    · rw [callbacks_of_collector hc] at untold
      rw [untold] at hcb
      cases hcb

theorem Unhooked.perform (U : Unhooked s) (call : Call) : Unhooked (s.perform (.call call)).2 :=
  ⟨U.tended.perform rfl, perform_watched U.watched rfl⟩

theorem Unhooked.exists_collector (U : Unhooked s) (hc : s.memory.collector = some c)
    (call : Call) : ∃ c', (s.perform (.call call)).2.memory.collector = some c' :=
  (perform_leads_scope U.watched.settled rfl).exists_collector hc

theorem Unhooked.accounts (U : Unhooked s) : s.memory.heap.Accounts := U.tended.attained.accounts

end Machine

/-- Two memories hold the same objects of the same ages, which are filed alike. -/
structure Memory.Matches (m₁ m₂ : Memory) : Prop where
  heap : m₁.heap.Same m₂.heap
  ages : ∀ x, (m₁.heap.get? x).map (·.generation) = (m₂.heap.get? x).map (·.generation)
  buckets : m₁.collector.map (·.tracker.buckets) = m₂.collector.map (·.tracker.buckets)

/-- After full collections of heaps that agree, the memories match. -/
theorem Machine.Unhooked.collect_matches (U₁ : Unhooked s₁) (U₂ : Unhooked s₂)
    (hc₁ : s₁.memory.collector = some c₁) (hc₂ : s₂.memory.collector = some c₂)
    (off₁ : c₁.debug.has .saveAll = false) (off₂ : c₂.debug.has .saveAll = false)
    (A : s₁.memory.heap.Agree s₂.memory.heap) :
    (s₁.perform (.call (.collect 2))).2.memory.Matches
      (s₂.perform (.call (.collect 2))).2.memory := by
  have same := U₁.watched.collect_same U₂.watched hc₁ hc₂ off₁ off₂ U₁.accounts U₂.accounts A
  have V₁ := U₁.perform (.collect 2)
  have V₂ := U₂.perform (.collect 2)
  have filing := same.filing (U₁.watched.collect_grown hc₁) (U₂.watched.collect_grown hc₂)
    V₁.tended.attained.agelessAtoms V₂.tended.attained.agelessAtoms
  refine ⟨same, fun x => ?_, ?_⟩
  · have ages := congrArg (Option.map Prod.snd) (filing x)
    rw [Heap.filing, Heap.filing, Option.map_map, Option.map_map] at ages
    exact ages
  · obtain ⟨c₁', hc₁'⟩ := U₁.exists_collector hc₁ (.collect 2)
    obtain ⟨c₂', hc₂'⟩ := U₂.exists_collector hc₂ (.collect 2)
    rw [hc₁', hc₂', Option.map_some, Option.map_some]
    exact congrArg some ((V₁.watched.settled.files hc₁').buckets_eq (V₁.watched.filesAll hc₁')
      (V₂.watched.settled.files hc₂') (V₂.watched.filesAll hc₂') filing)

namespace Machine

/-- What calls answer with, one after the other. -/
def outcomes (s : Machine) (calls : List Call) : List (Except Fault Answer) :=
  (s.performAll (calls.map .call)).1.map (·.outcome)

theorem outcomes_cons (s : Machine) (call : Call) (calls : List Call) :
    s.outcomes (call :: calls) =
      (s.perform (.call call)).1.outcome :: (s.perform (.call call)).2.outcomes calls := rfl

theorem run_cons (s : Machine) (call : Call) (calls : List Call) :
    s.run (call :: calls) = (s.perform (.call call)).2.run calls := rfl

/-- Keeping garbage only postpones its collection. On a machine that no hooks are left on, and whose
collector was there before the first object and keeps no garbage, a full collection that keeps
garbage frees nothing. When the references to it are given back, the heap is what it was; the next
full collection counts the same containers again, and leaves what a full collection would have left
in the first place. -/
theorem Tended.postpones (run : Tended s) (hc : s.memory.collector = some c)
    (unpending : ∀ x o, s.memory.heap.get? x = some o → o.pendingFinalizer? = none)
    (untold : c.callbacks = []) (unsaved : c.garbage = []) {on off : DebugFlags}
    (keeps : on.has .saveAll = true) (discards : off.has .saveAll = false) :
    ∃ n, n = s.memory.heap.unreached.ncard ∧
      s.outcomes [.setDebug on, .collect 2, .setDebug off, .clearGarbage, .collect 2] =
        [.ok .done, .ok (.nat n), .ok .done, .ok (.nat n), .ok (.nat n)] ∧
      s.outcomes [.setDebug off, .collect 2] = [.ok .done, .ok (.nat n)] ∧
      (s.run [.setDebug on, .collect 2]).memory.heap.live = s.memory.heap.live ∧
      (s.run [.setDebug on, .collect 2]).memory.heap.freed = s.memory.heap.freed ∧
      s.memory.heap.Same
        (s.run [.setDebug on, .collect 2, .setDebug off, .clearGarbage]).memory.heap ∧
      (s.run [.setDebug on, .collect 2, .setDebug off, .clearGarbage, .collect 2]).memory.Matches
        (s.run [.setDebug off, .collect 2]).memory := by
  have U := run.unhooked unpending ((callbacks_of_collector hc).trans untold)
  simp only [outcomes_cons, run_cons]
  -- with the flag set, the garbage is kept
  obtain ⟨flagged, heap₁, hc₁⟩ := perform_setDebug hc on
  have U₁ := U.perform (.setDebug on)
  obtain ⟨garbage, c₂, nodup, mem, kept, hoards, hc₂, listed⟩ :=
    U₁.watched.keep hc₁ keeps U₁.accounts
  have U₂ := U₁.perform (.collect 2)
  obtain rfl : c₂.garbage = garbage := by rw [listed, unsaved, List.nil_append]
  rw [heap₁] at mem hoards
  have count := Heap.ncard_unreached nodup mem
  -- with the flag cleared, it is given back
  obtain ⟨cleared, heap₃, hc₃⟩ := perform_setDebug hc₂ off
  have U₃ := U₂.perform (.setDebug off)
  obtain ⟨given, same, hc₄⟩ := perform_clearGarbage_of_hoards hc₃ U.watched.settled.consistent
    (heap₃.symm ▸ hoards) nodup fun x hx => ((mem x).mp hx).1.imp fun _ => And.left
  have U₄ := U₃.perform .clearGarbage
  -- the heap is what it was, so a collection finds the same in both
  obtain ⟨unflagged, heap₅, hc₅⟩ := perform_setDebug hc off
  have U₅ := U.perform (.setDebug off)
  have again := U₄.watched.collect_answers hc₄ discards
  have once := U₅.watched.collect_answers hc₅ discards
  rw [same.unreached, count] at again
  rw [heap₅, count] at once
  have agree := same.agree.symm
  rw [← heap₅] at agree
  refine ⟨c₂.garbage.length, count.symm, ?_, ?_, hoards.live, hoards.freed, same,
    U₄.collect_matches U₅ hc₄ hc₅ discards discards agree⟩
  · rw [flagged, kept, cleared, given, again]
    rfl
  · rw [unflagged, once]
    rfl

/-- The islands are kept at first, and they go when the flag has been cleared. -/
theorem postpones_islands :
    (∃ n, n = islands.memory.heap.unreached.ncard ∧
      islands.outcomes [.setDebug .saveAll, .collect 2, .setDebug .none, .clearGarbage,
        .collect 2] = [.ok .done, .ok (.nat n), .ok .done, .ok (.nat n), .ok (.nat n)] ∧
      (islands.run [.setDebug .saveAll, .collect 2, .setDebug .none, .clearGarbage,
        .collect 2]).memory.Matches (islands.run [.setDebug .none, .collect 2]).memory) ∧
      (islands.run [.setDebug .saveAll, .collect 2]).memory.heap.toList.map (·.rootCount) =
        [1, 1, 0, 1] ∧
      (islands.run [.setDebug .saveAll, .collect 2, .setDebug .none, .clearGarbage,
        .collect 2]).memory.heap.toList.map (·.id) = [3, 4] := by
  have bare : islands.memory.collector.any (fun c => c.callbacks.isEmpty && c.garbage.isEmpty) =
      true := by decide +kernel
  obtain ⟨c, hc, bare⟩ := (Option.any_eq_true _ _).mp bare
  rw [Bool.and_eq_true, List.isEmpty_iff, List.isEmpty_iff] at bare
  have unpending (x : ObjectId) (o : Object) (hx : islands.memory.heap.get? x = some o) :
      o.pendingFinalizer? = none := by
    have all : islands.memory.heap.toList.all (·.pendingFinalizer?.isNone) = true := by
      decide +kernel
    exact Option.isNone_iff_eq_none.mp
      (List.all_eq_true.mp all o (Heap.mem_toList.mpr ⟨x, hx⟩))
  obtain ⟨n, count, answers, -, -, -, -, alike⟩ := watched_islands.tended.postpones hc unpending
    bare.1 bare.2 (show DebugFlags.saveAll.has .saveAll = true by decide)
    (show DebugFlags.none.has .saveAll = false by decide)
  exact ⟨⟨n, count, answers, alike⟩, by decide +kernel, by decide +kernel⟩

end Machine

end Reclaim
