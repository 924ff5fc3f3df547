import Mathlib.Logic.Function.Basic
import Reclaim.Proofs.FullCollection
import Reclaim.Proofs.Linking

/-!
# Who holds saved garbage

In a run without hooks in which the host gives back no more than it has obtained, the root
references to an object are those of the host and, if the object is listed as saved, one of the
collector (`Memory.Owns`). Passes keep it so (`Machine.run_saves`), and so does every operation
(`Machine.perform_owns`); giving back the references to saved garbage then succeeds and takes from
each object that is listed the one reference of the collector (`Machine.Managed.saved_owned`).
-/

set_option autoImplicit false

namespace Reclaim

open Machine

/-- How many root references the host holds to each object. -/
abbrev Holdings := ObjectId → Nat

variable {sc : Scope} {b : Bool} {L : Loose} {Q : ObjectId → Prop} {s s' : Machine}
  {m m' m'' : Memory} {own : Holdings} {new new' : List ObjectId} {x : ObjectId} {op : Op}
  {g : Generation}

/-- The root references to an object are those of the host, and one of the collector if the object
is listed as saved. -/
structure Memory.Owns (m : Memory) (own : Holdings) : Prop where
  nodup : m.saved.Nodup
  live : ∀ x, 0 < own x + m.saved.count x → ∃ o, m.heap.get? x = some o
  roots : ∀ x o, m.heap.get? x = some o → o.rootCount = own x + m.saved.count x

/-- Memory after something that has listed `new`: what is held is still there, and every object has
as many root references as before, and one more if it is new in the list. -/
structure Memory.Saves (m : Memory) (new : List ObjectId) (m' : Memory) : Prop where
  saved : m'.saved = m.saved ++ new
  nodup : new.Nodup
  unrooted : ∀ x ∈ new, ∃ o, m.heap.get? x = some o ∧ o.rootCount = 0
  live : ∀ x o, m.heap.get? x = some o → 0 < o.rootCount + new.count x →
    ∃ p, m'.heap.get? x = some p
  roots : ∀ x p, m'.heap.get? x = some p →
    ∃ o, m.heap.get? x = some o ∧ p.rootCount = o.rootCount + new.count x

namespace Memory

/-- Ownership is a matter of root references and of the list. -/
theorem Owns.congr (O : m.Owns own) (saved : m'.saved = m.saved)
    (same : ∀ x, (m'.heap.get? x).map (·.rootCount) = (m.heap.get? x).map (·.rootCount)) :
    m'.Owns own where
  nodup := saved ▸ O.nodup
  live x held := by
    obtain ⟨o, ho⟩ := O.live x (saved ▸ held)
    have e := same x
    rw [ho, Option.map_some, Option.map_eq_some_iff] at e
    exact e.imp fun _ => And.left
  roots x p hp := by
    have e := same x
    rw [hp, Option.map_some, eq_comm, Option.map_eq_some_iff] at e
    obtain ⟨o, ho, e⟩ := e
    rw [← e, saved]
    exact O.roots x o ho

/-- Where root references stay what they are, and the list as well, nothing new is listed. -/
theorem saves_of_anchors (anchors : m.heap.Anchors m'.heap) (saved : m'.saved = m.saved) :
    m.Saves [] m' where
  saved := saved.trans (List.append_nil _).symm
  nodup := List.nodup_nil
  unrooted _ hx := absurd hx List.not_mem_nil
  live := anchors.kept
  roots := anchors.old

theorem saves_of_roots (saved : m'.saved = m.saved ++ new) (nodup : new.Nodup)
    (unrooted : ∀ x ∈ new, ∃ o, m.heap.get? x = some o ∧ o.rootCount = 0)
    (same : ∀ x, (m'.heap.get? x).map (·.rootCount) =
      (m.heap.get? x).map fun o => if x ∈ new then o.rootCount + 1 else o.rootCount) :
    m.Saves new m' where
  saved := saved
  nodup := nodup
  unrooted := unrooted
  live x o ho _ := by
    have e := same x
    rw [ho, Option.map_some, Option.map_eq_some_iff] at e
    exact e.imp fun _ => And.left
  roots x p hp := by
    have e := same x
    rw [hp, Option.map_some, eq_comm, Option.map_eq_some_iff] at e
    obtain ⟨o, ho, e⟩ := e
    refine ⟨o, ho, ?_⟩
    rw [nodup.count, ← e]
    split <;> rfl

/-- Nobody owns anything in an empty heap. -/
theorem owns_of_empty (empty : ∀ x, m.heap.get? x = none) (unlisted : m.saved = []) :
    m.Owns fun _ => 0 := by
  refine ⟨unlisted ▸ List.nodup_nil, fun x held => ?_, fun x o ho => ?_⟩
  · rw [unlisted] at held
    exact absurd held (Nat.lt_irrefl 0)
  · cases (empty x).symm.trans ho

/-- What has been listed is held. -/
theorem Saves.held {p : Object} (S : m.Saves new m') (hx : x ∈ new)
    (hp : m'.heap.get? x = some p) : 0 < p.rootCount := by
  obtain ⟨o, -, root⟩ := S.roots x p hp
  have := List.count_pos_iff.mpr hx
  omega

theorem Saves.trans (one : m.Saves new m') (two : m'.Saves new' m'') :
    m.Saves (new ++ new') m'' where
  saved := by rw [two.saved, one.saved, List.append_assoc]
  nodup := by
    refine one.nodup.append two.nodup fun x hx hx' => ?_
    -- what is held is not listed again
    obtain ⟨p, hp, root⟩ := two.unrooted x hx'
    have := one.held hx hp
    omega
  unrooted x hx := by
    rcases List.mem_append.mp hx with hx | hx
    · exact one.unrooted x hx
    · obtain ⟨p, hp, root⟩ := two.unrooted x hx
      obtain ⟨o, ho, root'⟩ := one.roots x p hp
      exact ⟨o, ho, by omega⟩
  live x o ho held := by
    rw [List.count_append] at held
    by_cases first : 0 < o.rootCount + new.count x
    · obtain ⟨p, hp⟩ := one.live x o ho first
      obtain ⟨o', ho', root⟩ := one.roots x p hp
      rw [ho, Option.some.injEq] at ho'
      subst ho'
      exact two.live x p hp (by omega)
    · have second : 0 < new'.count x := by omega
      obtain ⟨p, hp, -⟩ := two.unrooted x (List.count_pos_iff.mp second)
      exact two.live x p hp (by omega)
  roots x q hq := by
    obtain ⟨p, hp, second⟩ := two.roots x q hq
    obtain ⟨o, ho, first⟩ := one.roots x p hp
    exact ⟨o, ho, by rw [List.count_append]; omega⟩

/-- The collector comes to own what is listed. -/
theorem Owns.saves (O : m.Owns own) (S : m.Saves new m') : m'.Owns own where
  nodup := by
    rw [S.saved]
    refine O.nodup.append S.nodup fun x hx hx' => ?_
    obtain ⟨o, ho, root⟩ := S.unrooted x hx'
    have := O.roots x o ho
    have := List.count_pos_iff.mpr hx
    omega
  live x held := by
    rw [S.saved, List.count_append] at held
    by_cases before : 0 < own x + m.saved.count x
    · obtain ⟨o, ho⟩ := O.live x before
      have := O.roots x o ho
      exact S.live x o ho (by omega)
    · have listed : 0 < new.count x := by omega
      obtain ⟨o, ho, -⟩ := S.unrooted x (List.count_pos_iff.mp listed)
      exact S.live x o ho (by omega)
  roots x p hp := by
    obtain ⟨o, ho, root⟩ := S.roots x p hp
    have := O.roots x o ho
    rw [S.saved, List.count_append]
    omega

end Memory

/-! ## Passes -/

/-- A host that may do whatever it likes, while its hooks only link. -/
structure Scope.Linked (sc : Scope) : Prop where
  active : sc.Active
  tame : sc.Tame
  passes : sc.passes

namespace Machine

/-- A moment outside of passes in a run that has begun at `t`, and what the host holds then. No more
than `n` finalizers are left to be run, and no callbacks are registered. -/
structure Holds (sc : Scope) (n : Nat) (t : Machine) (L : Loose) (own : Holdings) (s : Machine) :
    Prop where
  reaches : Reaches sc false Loose.none t L (fun _ => False) s
  enough : s.memory.heap.unspent sc ≤ n
  untold : s.callbacks = []
  owns : s.memory.Owns own

variable {n : Nat} {t : Machine} {c : Collector}

theorem Holds.there (H : Holds sc n t L own s) : At sc false L (fun _ => False) s := H.reaches.there

theorem Holds.next {L' : Loose} {own' : Holdings} (H : Holds sc n t L own s)
    (reaches : Reaches sc false L s L' (fun _ => False) s') (untold : s'.callbacks = [])
    (owns : s'.memory.Owns own') : Holds sc n t L' own' s' :=
  ⟨H.reaches.trans reaches, Nat.le_trans reaches.unspent_le H.enough, untold, owns⟩

/-- A collector stays there throughout the run. -/
theorem Holds.exists_collector {L' : Loose} {own' : Holdings} (H : Holds sc n t L own s)
    (H' : Holds sc n t L' own' s') (hc : s.memory.collector = some c) :
    ∃ c', s'.memory.collector = some c' := by
  have before := Steps.collector H.reaches.steps
  rw [hc, ← Steps.collector H'.reaches.steps] at before
  exact Option.isSome_iff_exists.mp before.symm

/-- A pass that does not keep its garbage lists nothing. -/
theorem saves_of_discards {names : Finset ObjectId} (k : Pass.LinkedCourse names n c g s)
    (off : c.debug.has .saveAll = false) : s.memory.Saves [] k.ended.memory := by
  have links := Scope.linking_links names (c.debug.has .saveAll = true) True True
  have discards : ¬ c.debug.has .saveAll = true := off ▸ Bool.false_ne_true
  exact Memory.saves_of_anchors (Steps.anchors links discards k.leads.steps)
    (Steps.saved_eq (links.not_may (by simp)) (fun both => discards both.2) k.leads.steps)

/-- A pass that keeps its garbage lists it. -/
theorem saves_of_keeps {names : Finset ObjectId} (k : Pass.LinkedCourse names n c g s)
    (on : c.debug.has .saveAll = true) :
    s.memory.Saves k.collection.garbage k.ended.memory := by
  have nodup := k.nodup_candidates
  have links := Scope.linking_links names (c.debug.has .saveAll = true) True True
  -- the finalizers come first, and they neither hold anything nor let go of it
  have first : s.memory.Saves [] k.collection.finalized.memory :=
    Memory.saves_of_anchors k.anchors k.saved_same
  obtain ⟨c', hc', booked⟩ := k.booked
  have saves : (Pass.options k.collector.debug).saveGarbage = true :=
    (congrArg (·.debug.has .saveAll) k.collector_same).trans on
  have retains := k.collection.saved saves
  have listed : k.ended.memory.saved =
      k.collection.finalized.memory.saved ++ k.collection.garbage := by
    have kept : k.collection.after.memory.saved = k.collection.finalized.memory.saved :=
      Steps.saved_eq (links.calm.not_may (by simp)) And.left k.collection.sweeps.steps
    have collected := k.collection.collected_eq (k.opened_same ▸ k.swells)
    calc k.ended.memory.saved
        = _ := congrArg Memory.saved booked
      _ = _ := Memory.saved_book hc' g (c.debug.has .saveAll) k.collection.report
      _ = _ := by rw [if_pos on, kept, collected]
  have parted := k.collection.again.sub_unreachable.nodup
    ((k.collection.nodup_unreachable nodup).filter _)
  have second : k.collection.finalized.memory.Saves k.collection.garbage k.ended.memory := by
    refine Memory.saves_of_roots listed parted (k.collection.garbage_isolated nodup).unrooted ?_
    intro x
    have roots := congrArg (Option.map (·.rootCount)) (retains x)
    rw [Option.map_map, Option.map_map] at roots
    have retained (o : Object) :
        (if x ∈ k.collection.garbage then o.addRoot.incRef else o).unmarked.rootCount =
          if x ∈ k.collection.garbage then o.rootCount + 1 else o.rootCount := by
      split <;> rfl
    simp only [Function.comp_def, retained] at roots
    rw [booked, Memory.map_get?_book (fun _ _ => rfl)]
    exact roots
  exact first.trans second

/-- Where hooks only link, a pass takes the course of a pass with such hooks. It lists as saved what
it keeps, and leaves to the host what it holds. -/
theorem Holds.run (H : Holds sc n t Loose.none own s) (linked : sc.Linked)
    (hc : s.memory.collector = some c) (g : Generation) :
    ∃ k : Pass.LinkedCourse sc.names n { c with collecting := true } g
        (s.mapCollector ({ · with collecting := true })),
      Pass.run (Hooks.ofPass n) g s =
        .ok k.outcome (k.ended.mapCollector ({ · with collecting := false })) ∧
      Holds sc n t Loose.none own (k.ended.mapCollector ({ · with collecting := false })) := by
  have P := Hooks.ofPass_sound sc linked.passes (linked.active _) n
  obtain ⟨outcome, s', run, leads, -⟩ := Pass.run_leads (g := g) P H.there H.enough hc
  have began := H.there.mark hc true
  have hc₁ : (s.mapCollector ({ · with collecting := true })).memory.collector =
      some { c with collecting := true } := congrArg (Option.map _) hc
  have untold : c.callbacks = [] := (callbacks_of_collector hc).symm.trans H.untold
  obtain ⟨k⟩ := Pass.linked_course linked.tame linked.passes began.there
    (Nat.le_trans began.unspent_le H.enough) hc₁ untold g
  have run' := Pass.run_of_body k.body_eq
  obtain rfl : k.ended.mapCollector ({ · with collecting := false }) = s' := by
    rw [run] at run'
    cases run'
    rfl
  refine ⟨k, run', H.next leads.toReaches ?_ ?_⟩
  · exact (callbacks_mapCollector (by intro; rfl)).trans k.untold
  -- the marks that are set and cleared around the body do not matter to the list
  · have marked : (s.mapCollector ({ · with collecting := true })).memory.Owns own :=
      H.owns.congr (Memory.saved_map (by intro; rfl) _ _) fun _ => rfl
    have owns : k.ended.memory.Owns own := by
      rcases Bool.eq_false_or_eq_true (c.debug.has .saveAll) with on | off
      · exact marked.saves (saves_of_keeps k on)
      · exact marked.saves (saves_of_discards k off)
    exact owns.congr (Memory.saved_map (by intro; rfl) _ _) fun _ => rfl

/-- So do passes over older generations that become due. -/
theorem Holds.runDue (H : Holds sc n t Loose.none own s) (linked : sc.Linked)
    (hc : s.memory.collector = some c) (rounds : Nat) (g : Generation) :
    ∃ s', Pass.runDue (Pass.run (Hooks.ofPass n)) rounds g s = .ok () s' ∧
      Holds sc n t Loose.none own s' := by
  induction rounds generalizing s g c with
  | zero => exact ⟨s, rfl, H⟩
  | succ rounds ih =>
    obtain ⟨k, run₁, H₁⟩ := H.run linked hc g
    cases due : k.outcome.due with
    | none =>
      refine ⟨_, ?_, H₁⟩
      simp only [Pass.runDue, Act.bind_apply, run₁, due, Act.pure_apply]
    | some older =>
      obtain ⟨c₁, hc₁⟩ := H.exists_collector H₁ hc
      obtain ⟨s', run, H'⟩ := ih H₁ hc₁ older
      refine ⟨s', ?_, H'⟩
      simp only [Pass.runDue, Act.bind_apply, run₁, due, run]

end Machine

/-! ## Operations -/

namespace Memory

variable {o p : Object} {k : Nat}

/-- The holdings of the host change along with the root references to one object. -/
theorem Owns.put (O : m.Owns own) (x : ObjectId) (root : p.rootCount = k + m.saved.count x) :
    ({ m with heap := m.heap.put x p } : Memory).Owns (Function.update own x k) where
  nodup := O.nodup
  live y held := by
    rw [Heap.get?_put]
    split
    · exact ⟨p, rfl⟩
    · next ne =>
      rw [Function.update_of_ne (Ne.symm ne)] at held
      exact O.live y held
  roots y q hq := by
    rw [Heap.get?_put] at hq
    split at hq
    · next e =>
      subst e
      cases hq
      rw [Function.update_self]
      exact root
    · next ne =>
      rw [Function.update_of_ne (Ne.symm ne)]
      exact O.roots y q hq

theorem Owns.retain {h : Heap} (O : m.Owns own) (run : m.heap.retain x = .ok h) :
    ({ m with heap := h } : Memory).Owns (Function.update own x (own x + 1)) := by
  obtain ⟨o, ho, rfl⟩ := Heap.exists_of_retain run
  apply O.put
  have := O.roots x o ho
  show o.rootCount + 1 = _
  omega

theorem Owns.giveUpRoot {h : Heap} (O : m.Owns own) (mine : 0 < own x)
    (run : m.heap.giveUpRoot x = .ok h) :
    ({ m with heap := h } : Memory).Owns (Function.update own x (own x - 1)) := by
  obtain ⟨o, k, ho, root, rfl⟩ := Heap.exists_of_giveUpRoot run
  apply O.put
  have := O.roots x o ho
  show k = _
  omega

/-- A reference that the host holds can be given up. -/
theorem Owns.exists_giveUpRoot (O : m.Owns own) (mine : 0 < own x) :
    ∃ h, m.heap.giveUpRoot x = .ok h := by
  obtain ⟨o, ho⟩ := O.live x (by omega)
  have root := O.roots x o ho
  obtain ⟨k, hk⟩ := Nat.exists_eq_succ_of_ne_zero (n := o.rootCount) (by omega)
  exact ⟨_, Heap.giveUpRoot_of_get? ho hk⟩

/-- The host holds one reference to a new object. -/
theorem Owns.allocate (O : m.Owns own) (B : m.heap.Balanced L) (kind : Kind) (typeName : String) :
    (m.allocate kind typeName).2.Owns
      (Function.update own m.heap.nextId (own m.heap.nextId + 1)) := by
  have unheld : own m.heap.nextId + m.saved.count m.heap.nextId = 0 := by
    by_contra held
    obtain ⟨o, ho⟩ := O.live m.heap.nextId (Nat.pos_of_ne_zero held)
    rw [B.fresh] at ho
    cases ho
  have root : (Tracker.newObject m.heap kind typeName).rootCount =
      own m.heap.nextId + 1 + m.saved.count m.heap.nextId := by
    show 1 = _
    omega
  have put := O.put m.heap.nextId root
  rw [Memory.allocate_eq]
  exact put.congr (Memory.saved_map (by intro; rfl) _ _) fun _ => rfl

end Memory

namespace Machine

variable {n : Nat} {t : Machine}

/-- Giving back a loose reference changes no holdings. -/
theorem Holds.drop (H : Holds sc n t (Loose.none.add [x]) own s) (linked : sc.Linked) :
    ∃ s', Release.dropReference (Hooks.outside n).finalization x s = .ok () s' ∧
      Holds sc n t Loose.none own s' ∧ s'.memory.saved = s.memory.saved := by
  obtain ⟨s', dropped, leads⟩ := Release.dropReference_leads
    (Hooks.outside_sound sc linked.passes n).finalization H.there H.enough
  -- no pass is started meanwhile, so it does not matter whether garbage would be kept
  have I : At (.linking sc.names False True False) false (Loose.none.add [x]) (fun _ => False) s :=
    H.there.linking linked.tame (fun _ => linked.passes) False.elim
  have F := (Hooks.outside_sound (.linking sc.names False True False) trivial n).finalization
  obtain ⟨s'', dropped', tame⟩ := Release.dropReference_leads F I H.enough
  obtain rfl : s' = s'' := by
    rw [dropped] at dropped'
    injection dropped'
  have links := Scope.linking_links sc.names False True False
  have saved := Steps.saved_eq (links.not_may (by simp)) And.right tame.steps
  have untold := Steps.callbacks (links.not_may (by simp)) tame.steps
  have anchors := Steps.anchors links id tame.steps
  exact ⟨s', dropped, H.next leads.toReaches (untold.trans H.untold)
    (H.owns.saves (Memory.saves_of_anchors anchors saved)), saved⟩

/-- The host gives back a reference that it holds. -/
theorem Holds.release (H : Holds sc n t Loose.none own s) (linked : sc.Linked)
    (mine : 0 < own x) :
    ∃ s', Host.release (Hooks.outside n) x s = .ok () s' ∧
      Holds sc n t Loose.none (Function.update own x (own x - 1)) s' ∧
      s'.memory.saved = s.memory.saved := by
  obtain ⟨h, run⟩ := H.owns.exists_giveUpRoot mine
  have given : Reaches sc false Loose.none s (Loose.none.add [x]) (fun _ => False)
      (s.withHeap h) :=
    H.there.reach (.edit (.giveUpRoot (linked.active _) run)) (H.there.freeing.giveUpRoot run) rfl
  obtain ⟨s', dropped, H', saved⟩ :=
    (H.next given H.untold (H.owns.giveUpRoot mine run)).drop linked
  exact ⟨s', (Host.release_of_ok run).trans dropped, H', saved⟩

/-- The collector gives back the references that it holds, one after the other. -/
theorem Holds.releaseAll {xs : List ObjectId}
    (H : Holds sc n t Loose.none (fun x => own x + xs.count x) s) (linked : sc.Linked) :
    ∃ s', xs.forM (Host.release (Hooks.outside n)) s = .ok () s' ∧
      Holds sc n t Loose.none own s' ∧ s'.memory.saved = s.memory.saved := by
  induction xs generalizing s with
  | nil => exact ⟨s, rfl, H, rfl⟩
  | cons x xs ih =>
    -- in the meantime they count among those of the host
    have mine : 0 < own x + (x :: xs).count x := by
      rw [List.count_cons_self]
      omega
    obtain ⟨s₁, run₁, H₁, saved₁⟩ := H.release linked mine
    have rest : Function.update (fun y => own y + (x :: xs).count y) x
        (own x + (x :: xs).count x - 1) = fun y => own y + xs.count y := by
      funext y
      by_cases e : y = x
      · subst e
        rw [Function.update_self, List.count_cons_self]
        omega
      · rw [Function.update_of_ne e, List.count_cons_of_ne (Ne.symm e)]
    obtain ⟨s', run, H', saved⟩ := ih (rest ▸ H₁)
    refine ⟨s', ?_, H', saved.trans saved₁⟩
    simp only [List.forM, Act.bind_apply, run₁, run]

/-- The collector gives back all that it holds, and nothing else. -/
theorem Holds.clearGarbage {c : Collector} (H : Holds sc n t Loose.none own s) (linked : sc.Linked)
    (hc : s.memory.collector = some c) :
    ∃ s', Host.clearGarbage (Hooks.outside n) s = .ok c.garbage.length s' ∧
      Holds sc n t Loose.none own s' ∧ s'.memory.saved = [] := by
  have empty := saved_disowned s
  have held : (s.mapCollector ({ · with garbage := [] })).memory.Owns
      fun x => own x + c.garbage.count x := by
    rw [← Memory.saved_of_collector hc]
    refine ⟨?_, fun x held => H.owns.live x ?_, fun x o ho => ?_⟩
    · rw [empty]
      exact List.nodup_nil
    · rw [empty] at held
      exact held
    · rw [empty]
      exact H.owns.roots x o ho
  have untold : (s.mapCollector ({ · with garbage := [] })).callbacks = [] := by
    exact (callbacks_mapCollector (by intro; rfl)).trans H.untold
  have disowned := H.next (H.there.disown (linked.active _)).toReaches untold held
  obtain ⟨s', run, H', saved⟩ := disowned.releaseAll linked
  refine ⟨s', ?_, H', saved.trans empty⟩
  simp only [Host.clearGarbage, Act.bind_apply, Act.collector_of_some hc, Act.modifyCollector_apply,
    run, Act.pure_apply]

/-- The host holds one reference to an object that it allocates, whatever passes are due then. -/
theorem Holds.allocate (H : Holds sc n t Loose.none own s) (linked : sc.Linked) (kind : Kind)
    (typeName : String) :
    ∃ s', Host.allocate (Hooks.outside n) kind typeName s = .ok s.memory.heap.nextId s' ∧
      Holds sc n t Loose.none
        (Function.update own s.memory.heap.nextId (own s.memory.heap.nextId + 1)) s' := by
  have inserted := Host.insert_leads (linked.active _) H.there kind typeName
  have untold : (s.withMemory (s.memory.allocate kind typeName).2).callbacks = [] := by
    refine Eq.trans ?_ H.untold
    rw [Memory.allocate_eq]
    exact callbacks_of_map rfl fun _ => rfl
  have H₁ := H.next inserted.toReaches untold (H.owns.allocate H.there.sound.balanced kind typeName)
  obtain ⟨s', run, H'⟩ : ∃ s', Host.afterAllocation (Hooks.outside n)
      (s.memory.allocate kind typeName).2
      (s.withMemory (s.memory.allocate kind typeName).2) = .ok () s' ∧
      Holds sc n t Loose.none
        (Function.update own s.memory.heap.nextId (own s.memory.heap.nextId + 1)) s' := by
    unfold Host.afterAllocation
    cases wants : (s.memory.allocate kind typeName).2.wantsPass with
    | false => exact ⟨_, rfl, H₁⟩
    | true =>
      obtain ⟨c, hc, -⟩ := (Option.any_eq_true _ _).mp wants
      rw [Hooks.outside_pass]
      exact H₁.runDue linked hc 3 .youngest
  exact ⟨s', Host.allocate_of_ok run, H'⟩

/-- Taking an edge away changes no holdings. -/
theorem Holds.removeEdge {y : ObjectId} {h : Heap} (H : Holds sc n t Loose.none own s)
    (linked : sc.Linked) (run : s.memory.heap.cut x y = .ok h) :
    ∃ s', Host.removeEdge (Hooks.outside n) x y s = .ok () s' ∧
      Holds sc n t Loose.none own s' := by
  obtain ⟨o, ho, -, e⟩ := Heap.exists_of_cut run
  have given : Reaches sc false Loose.none s (Loose.none.add [y]) (fun _ => False) (s.withHeap h) :=
    H.there.reach (.edit (.cut (linked.active _) run)) (H.there.freeing.cut run) rfl
  have owns : (s.withHeap h).memory.Owns own :=
    H.owns.congr rfl (e ▸ Heap.map_get?_put ho (by rfl))
  obtain ⟨s', dropped, H', -⟩ := (H.next given H.untold owns).drop linked
  exact ⟨s', (Host.removeEdge_of_ok run).trans dropped, H'⟩

/-- A collection is refused without any change, or it leaves to the host what it holds, and the
collector comes to own what it lists. At most it reports what was resurrected. -/
theorem Holds.collect_cases (H : Holds sc n t Loose.none own s) (linked : sc.Linked) (i : Int) :
    (∃ e, Host.collect (Hooks.outside n) i s = .error e s) ∨
      ∃ (outcome : PassOutcome) (s' : Machine), Holds sc n t Loose.none own s' ∧
        (Host.collect (Hooks.outside n) i s = .ok outcome.collected s' ∨
          Host.collect (Hooks.outside n) i s =
            .error (.resurrectionDetected outcome.resurrected outcome.collected) s') := by
  rcases Host.collect_cases (Hooks.outside n) i s with refused | ⟨c, g, hc, idle, hg⟩
  · exact .inl refused
  · obtain ⟨k, run, H'⟩ := H.run linked hc g
    obtain ⟨c', hc'⟩ := H.exists_collector H' hc
    have collected := Host.collect_apply hc idle hg (Hooks.outside_pass n) run hc'
    refine .inr ⟨k.outcome, _, H', ?_⟩
    split at collected
    · exact .inr collected
    · exact .inl collected

end Machine

namespace Act

variable {α β : Type} {act : Act α} {f : α → Act β}

/-- Whatever its outcome, the action leaves to the host and to the collector what they hold. -/
def Keeps (own : Holdings) (act : Act α) : Prop :=
  ∀ s, s.memory.Owns own → act.Always s (·.memory.Owns own)

theorem Still.keeps (still : Still act) : Keeps own act :=
  fun s O => (still s).mono fun _ same => same ▸ O

theorem Keeps.bind (keeps : Keeps own act) (next : ∀ a, Keeps own (f a)) :
    Keeps own (act >>= f) :=
  fun s O => Always.bind (keeps s O) (fun a s' _ O' => next a s' O') fun _ _ _ O' => O'

theorem Keeps.answer (keeps : Keeps own act) (g : α → β) :
    Keeps own (act >>= fun a => pure (g a)) :=
  keeps.bind fun a => (still_pure (g a)).keeps

theorem edit_keeps {f : Heap → Except Fault Heap} (same : ∀ h h', f h = .ok h' →
    ∀ x, (h'.get? x).map (·.rootCount) = (h.get? x).map (·.rootCount)) :
    Keeps own (Act.edit f) := by
  intro s O
  cases run : f s.memory.heap with
  | ok h' => exact always_of_ok (edit_of_ok run) (O.congr rfl (same _ _ run))
  | error e => exact always_of_error (edit_of_error run) O

theorem configure_keeps {f : Collector → Except Fault Collector}
    (same : ∀ c c', f c = .ok c' → c'.garbage = c.garbage) : Keeps own (Host.configure f) := by
  intro s O
  rcases Host.configure_cases f s with ⟨e, refused⟩ | ⟨c, c', hc, run, configured⟩
  · exact always_of_error refused O
  · refine always_of_ok configured (O.congr ?_ fun _ => rfl)
    rw [saved_mapCollector hc, Memory.saved_of_collector hc]
    exact same c c' run

theorem modify_keeps {f : Machine → Machine} (same : ∀ s, (f s).memory = s.memory) :
    Keeps own (modify f : Act Unit) :=
  fun s O => always_of_ok (modify_apply f s) ((same s).symm ▸ O)

end Act

/-! ## Runs -/

namespace Call

/-- Calls that allocate no more than one object. -/
def isSingle : Call → Bool
  | .allocateMany _ _ => false
  | .chain _ _ => false
  | _ => true

/-- Calls that neither take references away nor give any to the host or to the collector. -/
def isNeutral : Call → Bool
  | .allocate _ _ => false
  | .allocateMany _ _ => false
  | .chain _ _ => false
  | .retain _ => false
  | .release _ => false
  | .removeEdge _ _ => false
  | .collect _ => false
  | .clearGarbage => false
  | _ => true

open Act

theorem keeps_of_isNeutral {c : Call} {hooks : Hooks} {self : ObjectId}
    (neutral : c.isNeutral = true) : Keeps own (Host.call hooks self c) := by
  cases c with
  | addEdge source target =>
    refine (edit_keeps fun h h' run x => ?_).answer _
    obtain ⟨o, p, ho, -, -, rfl⟩ := Heap.exists_of_addEdge run
    exact (Heap.map_get?_modify (by intro; rfl) _ x).trans (Heap.map_get?_put ho (by rfl) x)
  | clearFinalizer id =>
    refine (edit_keeps fun h h' run => ?_).answer _
    obtain ⟨o, ho, rfl⟩ := Heap.exists_of_setFinalizer run
    exact Heap.map_get?_put ho (by rfl)
  | enable | disable | setDebug _ | setPolicy _ | clearCallbacks =>
    refine (configure_keeps fun c c' run => ?_).answer _
    cases run
    rfl
  | setThresholds counts =>
    refine (configure_keeps fun c c' run => ?_).answer _
    obtain ⟨t, -, run⟩ := Heap.exists_of_bind run
    cases run
    rfl
  | snapshot slot =>
    exact (still_collector.keeps.bind fun _ =>
      (modify_keeps (by intro; rfl)).bind fun _ => (still_pure _).keeps).answer _
  | snapshotNext slot | snapshotRemaining slot =>
    exact ((Host.still_snapshotAt slot).keeps.bind fun _ => still_heap.keeps.bind fun _ =>
      (modify_keeps (by intro; rfl)).bind fun _ => (still_pure _).keeps).answer _
  | snapshotSize slot => exact (Host.still_snapshotAt slot).keeps.answer _
  | throw message => exact (still_throw _).keeps
  | announce name =>
    refine Keeps.answer (Keeps.bind ?_ fun _ => modify_keeps (by intro; rfl)) _
    exact fun s O => always_of_ok (record_apply _ s) O
  | _ => cases neutral

end Call

/-- Operations that install no hooks and allocate no more than one object. -/
def Op.isSingle : Op → Bool
  | .call c => c.isSingle
  | .ask _ => true
  | _ => false

namespace Holdings

/-- What the host holds after an operation with a given outcome. -/
def after (own : Holdings) : Op → Except Fault Answer → Holdings
  | .call (.allocate _ _), .ok (.nat x) => Function.update own x (own x + 1)
  | .call (.retain id), .ok _ => Function.update own (id.resolve 0) (own (id.resolve 0) + 1)
  | .call (.release id), .ok _ => Function.update own (id.resolve 0) (own (id.resolve 0) - 1)
  | _, _ => own

/-- The host has given back nothing but what it held. -/
def covers (own : Holdings) : Op → Except Fault Answer → Bool
  | .call (.release id), .ok _ => 0 < own (id.resolve 0)
  | _, _ => true

end Holdings

theorem Memory.Watched.at (W : s.memory.Watched) :
    At .hookless false Loose.none (fun _ => False) s.forget :=
  W.settled.at (s := s.forget) W.within

/-- A run without hooks is one in which hooks only link. -/
theorem Scope.hookless_linked : Scope.hookless.Linked where
  active _ := .inr ⟨.call .enable, rfl⟩
  tame _ := False.elim
  passes := trivial

namespace Machine

/-- An operation without hooks begins with what the host holds. -/
theorem Holds.begin (A : At .hookless false Loose.none (fun _ => False) s.forget)
    (O : s.memory.Owns own) (n : Nat) : Holds .hookless n s.forget Loose.none own s.forget where
  reaches := A.here.toReaches
  enough := Nat.zero_le _
  untold := by
    refine List.eq_nil_iff_forall_not_mem.mpr fun cb hcb => ?_
    unfold Machine.callbacks at hcb
    cases hc : s.forget.memory.collector with
    | none =>
      rw [hc] at hcb
      cases hcb
    | some c =>
      rw [hc] at hcb
      exact A.sound.within.callbacks trivial hc hcb
  owns := O

theorem perform_allocate_owns (A : At .hookless false Loose.none (fun _ => False) s.forget)
    (O : s.memory.Owns own) (kind : Kind) (typeName : String) :
    (s.perform (.call (.allocate kind typeName))).2.memory.Owns
      (own.after (.call (.allocate kind typeName))
        (s.perform (.call (.allocate kind typeName))).1.outcome) := by
  obtain ⟨s', run, H⟩ := (Holds.begin A O
    (s.memory.finalizerBudget + Op.installs (.call (.allocate kind typeName)))).allocate
      Scope.hookless_linked kind typeName
  have performed : Host.perform (s.hooksFor (.call (.allocate kind typeName))) 0
      (.call (.allocate kind typeName)) s.forget = .ok (.nat s.memory.heap.nextId) s' := by
    simp only [Host.perform, Host.call, hooksFor, Act.bind_apply, run, Act.pure_apply]
    rfl
  rw [perform_of_ok performed]
  exact H.owns

theorem perform_retain_owns (O : s.memory.Owns own) (id : Operand) :
    (s.perform (.call (.retain id))).2.memory.Owns
      (own.after (.call (.retain id)) (s.perform (.call (.retain id))).1.outcome) := by
  cases run : s.memory.heap.retain (id.resolve 0) with
  | ok h =>
    have edited := Act.edit_of_ok (s := s.forget) (f := (·.retain (id.resolve 0))) run
    have performed : Host.perform (s.hooksFor (.call (.retain id))) 0 (.call (.retain id))
        s.forget = .ok .done (s.forget.withHeap h) := by
      simp only [Host.perform, Host.call, Host.retain, Act.bind_apply, edited, Act.pure_apply]
    rw [perform_of_ok performed]
    exact O.retain run
  | error e =>
    have edited := Act.edit_of_error (s := s.forget) (f := (·.retain (id.resolve 0))) run
    have performed : Host.perform (s.hooksFor (.call (.retain id))) 0 (.call (.retain id))
        s.forget = .error e s.forget := by
      simp only [Host.perform, Host.call, Host.retain, Act.bind_apply, edited]
    rw [perform_of_error performed]
    exact O

theorem perform_release_owns (A : At .hookless false Loose.none (fun _ => False) s.forget)
    (O : s.memory.Owns own) (id : Operand)
    (covered : own.covers (.call (.release id)) (s.perform (.call (.release id))).1.outcome =
      true) :
    (s.perform (.call (.release id))).2.memory.Owns
      (own.after (.call (.release id)) (s.perform (.call (.release id))).1.outcome) := by
  have H := Holds.begin A O (s.memory.finalizerBudget + 0)
  cases run : s.memory.heap.giveUpRoot (id.resolve 0) with
  | ok h =>
    have performed {t : Machine} (released : Host.release (s.hooksFor (.call (.release id)))
        (id.resolve 0) s.forget = .ok () t) : Host.perform (s.hooksFor (.call (.release id))) 0
          (.call (.release id)) s.forget = .ok .done t := by
      simp only [Host.perform, Host.call, Act.bind_apply, released, Act.pure_apply]
    -- the release succeeds, so the host has held the reference
    obtain ⟨s₁, released, -⟩ := Host.release_leads
      (Hooks.outside_sound .hookless trivial (s.memory.finalizerBudget + 0))
      (Scope.hookless_linked.active _) A (Nat.zero_le _) run
    rw [perform_of_ok (performed released)] at covered
    have mine : 0 < own (id.resolve 0) := of_decide_eq_true covered
    obtain ⟨s', released, H', -⟩ := H.release Scope.hookless_linked mine
    rw [perform_of_ok (performed released)]
    exact H'.owns
  | error e =>
    have performed : Host.perform (s.hooksFor (.call (.release id))) 0 (.call (.release id))
        s.forget = .error e s.forget := by
      simp only [Host.perform, Host.call, Act.bind_apply,
        Host.release_of_error (s := s.forget) run]
    rw [perform_of_error performed]
    exact O

/-- Giving back the references to saved garbage succeeds, and leaves the host what it holds. -/
theorem perform_clearGarbage_owns {c : Collector}
    (A : At .hookless false Loose.none (fun _ => False) s.forget) (O : s.memory.Owns own)
    (hc : s.memory.collector = some c) :
    (s.perform (.call .clearGarbage)).1.outcome = .ok (.nat s.memory.saved.length) ∧
      (s.perform (.call .clearGarbage)).2.memory.saved = [] ∧
      (s.perform (.call .clearGarbage)).2.memory.Owns own := by
  have watched : s.forget.memory.collector = some c := hc
  obtain ⟨s', run, H, empty⟩ := (Holds.begin A O (s.memory.finalizerBudget + 0)).clearGarbage
    Scope.hookless_linked watched
  have performed : Host.perform (s.hooksFor (.call .clearGarbage)) 0 (.call .clearGarbage)
      s.forget = .ok (.nat c.garbage.length) s' := by
    simp only [Host.perform, Host.call, hooksFor, Op.installs, Act.bind_apply, run, Act.pure_apply]
  rw [perform_of_ok performed, Memory.saved_of_collector hc]
  exact ⟨rfl, empty, H.owns⟩

/-- Without hooks, and as long as the host gives back nothing but what it holds, root references are
owned after an operation if they are owned before it. -/
theorem perform_owns (A : At .hookless false Loose.none (fun _ => False) s.forget)
    (O : s.memory.Owns own) (single : op.isSingle = true)
    (covered : own.covers op (s.perform op).1.outcome = true) :
    (s.perform op).2.memory.Owns (own.after op (s.perform op).1.outcome) := by
  have H (op : Op) := Holds.begin A O (s.memory.finalizerBudget + op.installs)
  -- most operations change no holdings, whatever their outcome
  have kept (op : Op) (always : (Host.perform (s.hooksFor op) 0 op).Always s.forget
      (·.memory.Owns own)) : (s.perform op).2.memory.Owns own := perform_of_always always
  have neutral (c : Call) (none : c.isNeutral = true) :
      (s.perform (.call c)).2.memory.Owns own :=
    kept (.call c) (Call.keeps_of_isNeutral none s.forget O)
  cases op with
  | ask q => exact kept (.ask q) ((Host.still_ask 0 q).keeps s.forget O)
  | setFinalizer _ _ | addCallback _ _ | raw _ => cases single
  | call c =>
    cases c with
    | allocateMany _ _ | chain _ _ => cases single
    | allocate kind typeName => exact perform_allocate_owns A O kind typeName
    | retain id => exact perform_retain_owns O id
    | release id => exact perform_release_owns A O id covered
    | removeEdge source target =>
      apply kept (.call (.removeEdge source target))
      have removed : (Host.removeEdge (s.hooksFor (.call (.removeEdge source target)))
          (source.resolve 0) (target.resolve 0)).Always s.forget (·.memory.Owns own) := by
        cases run : s.forget.memory.heap.cut (source.resolve 0) (target.resolve 0) with
        | error e => exact Act.always_of_error (Host.removeEdge_of_error run) O
        | ok h =>
          obtain ⟨s', ok, H'⟩ :=
            (H (.call (.removeEdge source target))).removeEdge Scope.hookless_linked run
          exact Act.always_of_ok ok H'.owns
      exact removed.bind (fun _ _ _ O' => O') fun _ _ _ O' => O'
    | collect g =>
      apply kept (.call (.collect g))
      have collected : (Host.collect (s.hooksFor (.call (.collect g))) g).Always s.forget
          (·.memory.Owns own) := by
        rcases (H (.call (.collect g))).collect_cases Scope.hookless_linked g with
          ⟨e, refused⟩ | ⟨outcome, s', H', done | reported⟩
        · exact Act.always_of_error refused O
        · exact Act.always_of_ok done H'.owns
        · exact Act.always_of_error reported H'.owns
      exact collected.bind (fun _ _ _ O' => O') fun _ _ _ O' => O'
    | clearGarbage =>
      cases hc : s.memory.collector with
      | some c => exact (perform_clearGarbage_owns A O hc).2.2
      | none =>
        apply kept (.call .clearGarbage)
        have unwatched : s.forget.memory.collector = none := hc
        have refused : Host.perform (s.hooksFor (.call .clearGarbage)) 0 (.call .clearGarbage)
            s.forget = .error .collectorMissing s.forget := by
          simp only [Host.perform, Host.call, Host.clearGarbage, Act.bind_apply,
            Act.collector_of_none unwatched]
        exact Act.always_of_error refused O
    | _ => exact neutral _ rfl

/-- A machine without hooks whose host gives back nothing but what it holds, with its holdings. -/
inductive Managed : Holdings → Machine → Prop where
  | start (settings? : Option Settings) {s : Machine} :
      Machine.start settings? = .ok s → Managed (fun _ => 0) s
  | perform {own : Holdings} {s : Machine} {op : Op} : Managed own s → op.isSingle = true →
      own.covers op (s.perform op).1.outcome = true →
      Managed (own.after op (s.perform op).1.outcome) (s.perform op).2

/-- What the host holds after it has performed some operations. -/
def holdings (own : Holdings) (s : Machine) : List Op → Holdings
  | [] => own
  | op :: ops => (s.perform op).2.holdings (own.after op (s.perform op).1.outcome) ops

/-- The host gives back nothing but what it holds while it performs some operations. -/
def isThrifty (own : Holdings) (s : Machine) : List Op → Bool
  | [] => true
  | op :: ops =>
      op.isSingle && own.covers op (s.perform op).1.outcome &&
        (s.perform op).2.isThrifty (own.after op (s.perform op).1.outcome) ops

theorem Managed.performAll {ops : List Op} (run : Managed own s)
    (thrifty : s.isThrifty own ops = true) :
    Managed (s.holdings own ops) (s.performAll ops).2 := by
  induction ops generalizing own s with
  | nil => exact run
  | cons op ops ih =>
    simp only [isThrifty, Bool.and_eq_true] at thrifty
    obtain ⟨⟨single, covered⟩, rest⟩ := thrifty
    exact ih (run.perform single covered) rest

theorem Managed.owns (run : Managed own s) : s.memory.Watched ∧ s.memory.Owns own := by
  induction run with
  | start settings? run =>
    have settled := settled_of_start run
    obtain ⟨collector, rfl, fresh⟩ := exists_of_start run
    refine ⟨watched_of_empty settled Heap.get?_empty fresh, ?_⟩
    exact Memory.owns_of_empty Heap.get?_empty (saved_of_fresh fresh)
  | @perform own s op _ single covered ih =>
    have plain : op.isPlainOp = true := by
      cases op <;> first | rfl | cases single
    exact ⟨perform_watched ih.1 plain, perform_owns ih.1.at ih.2 single covered⟩

/-- Ownership of saved garbage. In a run without hooks whose host gives back nothing but what it
holds, each object that is listed as saved is live, it is listed once, and it has one root reference
besides those of the host; all other root references are those of the host. Giving back the
references to saved garbage succeeds, answers with the number of objects that were listed, and
leaves each object with the references of the host. -/
theorem Managed.saved_owned (run : Managed own s) :
    s.memory.saved.Nodup ∧
      (∀ x ∈ s.memory.saved, ∃ o, s.memory.heap.get? x = some o ∧ o.rootCount = own x + 1) ∧
      (∀ x o, s.memory.heap.get? x = some o → x ∉ s.memory.saved → o.rootCount = own x) ∧
      (s.memory.collector.isSome = true →
        (s.perform (.call .clearGarbage)).1.outcome = .ok (.nat s.memory.saved.length) ∧
        (s.perform (.call .clearGarbage)).2.memory.saved = [] ∧
        ∀ x o, (s.perform (.call .clearGarbage)).2.memory.heap.get? x = some o →
          o.rootCount = own x) := by
  obtain ⟨W, O⟩ := run.owns
  refine ⟨O.nodup, fun x hx => ?_, fun x o ho unlisted => ?_, fun watched => ?_⟩
  · obtain ⟨o, ho⟩ := O.live x (Nat.add_pos_right _ (List.count_pos_iff.mpr hx))
    have root := O.roots x o ho
    rw [List.count_eq_one_of_mem O.nodup hx] at root
    exact ⟨o, ho, root⟩
  · have root := O.roots x o ho
    rwa [List.count_eq_zero.mpr unlisted] at root
  · obtain ⟨c, hc⟩ := Option.isSome_iff_exists.mp watched
    obtain ⟨outcome, empty, owns⟩ := perform_clearGarbage_owns W.at O hc
    refine ⟨outcome, empty, fun x o ho => ?_⟩
    have root := owns.roots x o ho
    rwa [empty] at root

/-- A machine whose collector keeps garbage. -/
def keeper : Machine := (Machine.start (some { debug := .saveAll })).toOption.getD {}

/-- Two containers that refer to each other are let go of and saved; then the host looks up the
first one and retains it. -/
def regret : List Op :=
  [.call (.allocate .container "node"), .call (.allocate .container "node"),
    .call (.addEdge (.id 1) (.id 2)), .call (.addEdge (.id 2) (.id 1)),
    .call (.release (.id 1)), .call (.release (.id 2)), .call (.collect 2),
    .call (.retain (.id 1))]

/-- Besides the collector the host holds the first of the two saved containers. -/
theorem saved_owned_regret :
    (∃ o, (keeper.performAll regret).2.memory.heap.get? 1 = some o ∧ o.rootCount = 2) ∧
      ((keeper.performAll regret).2.perform (.call .clearGarbage)).1.outcome = .ok (.nat 2) ∧
      ((keeper.performAll regret).2.perform (.call .clearGarbage)).2.memory.heap.roots = [1] := by
  have managed : Managed (keeper.holdings (fun _ => 0) regret) (keeper.performAll regret).2 :=
    (Managed.start (some { debug := .saveAll }) rfl).performAll (by decide +kernel)
  obtain ⟨-, listed, -, cleared⟩ := managed.saved_owned
  have saved : (keeper.performAll regret).2.memory.saved = [1, 2] := by decide +kernel
  have mine : keeper.holdings (fun _ => 0) regret 1 = 1 := by decide +kernel
  refine ⟨?_, ?_, by decide +kernel⟩
  · have first := listed 1 (saved ▸ List.mem_cons_self)
    rwa [mine] at first
  · have outcome := (cleared (by decide +kernel)).1
    rwa [saved] at outcome

end Machine

end Reclaim
