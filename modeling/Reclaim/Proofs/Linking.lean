import Reclaim.Proofs.Restraint
import Reclaim.Proofs.SavedGarbage
import Reclaim.Proofs.Shedding

/-!
# Hooks that only link

A finalizer that does no more than to give objects references to others takes nothing away from
anyone. In the course of a run with such hooks no root reference is given or taken by a host, and
what the host reaches stays reachable (`Machine.Steps.anchors`, `Machine.Steps.reachable`). As long
as nothing is swept either, an object dies only when nobody refers to it, and then nobody did before
(`Machine.Steps.swells`): the finalizers of a collection free nothing
(`Cycles.Course.finalized_swells`).
-/

set_option autoImplicit false

namespace Reclaim

open Machine

/-- Operations that do no more to memory than to give an object a reference to another one. -/
def Op.isLink : Op → Bool
  | .call (.addEdge _ _) => true
  | .call (.announce _) => true
  | .call (.throw _) => true
  | .ask _ => true
  | _ => false

namespace Scope

variable {sc : Scope}

/-- A host does no more with its own hand than to give objects references to others and to have
passes started. -/
def Links (sc : Scope) : Prop := ∀ deed, sc.may deed → deed ∈ [Deed.link, .collect]

/-- The hooks do no more than to give objects references to others. -/
def Tame (sc : Scope) : Prop :=
  ∀ script, sc.hooks script → Script.everywhere Op.isLink script = true

/-- What may happen if only hooks that link are run. Passes may run to their end and be started, and
keep their garbage, or not. -/
def linking (names : Finset ObjectId) (saving passes collects : Prop) : Scope where
  names := names
  hooks script := Script.everywhere Op.isLink script = true
  allows op := op.everywhere Op.isLink = true
  may deed := deed = .link ∨ deed = .collect ∧ collects
  saving := saving
  passes := passes
  sweeps _ := passes
  host {op} allowed := by
    cases op with
    | call _ | ask _ => rfl
    | raw _ | setFinalizer _ _ | addCallback _ _ => simp [Op.everywhere, Op.isLink] at allowed
  deeds {op deed} allowed mem := by
    cases op with
    | call c =>
      cases c with
      | addEdge _ _ => exact .inl (List.mem_singleton.mp mem)
      | announce _ | throw _ => cases mem
      | _ => cases allowed
    | ask _ => cases mem
    | raw _ | setFinalizer _ _ | addCallback _ _ => simp [Op.everywhere, Op.isLink] at allowed
  steps hook mem := Script.everywhere_of_mem hook mem
  finalizer allowed := by simp [Op.everywhere, Op.isLink] at allowed
  callback allowed := by simp [Op.everywhere, Op.isLink] at allowed
  flags allowed := by cases allowed
  swept passes _ := passes

theorem linking_links (names : Finset ObjectId) (saving passes collects : Prop) :
    (linking names saving passes collects).Links := by
  rintro deed (rfl | ⟨rfl, -⟩) <;> simp

theorem linking_collects (names : Finset ObjectId) (saving passes : Prop) :
    (linking names saving passes True).may .collect := .inr ⟨rfl, trivial⟩

theorem linking_tame (names : Finset ObjectId) (saving passes collects : Prop) :
    (linking names saving passes collects).Tame := fun _ => id

theorem Links.calm (links : sc.Links) : sc.calm.Links := links

theorem Links.not_may (links : sc.Links) {deed : Deed} (other : deed ∉ [Deed.link, .collect]) :
    ¬ sc.may deed :=
  fun may => other (links deed may)

end Scope

/-- Where hooks only link, what is sound is so among hooks that only link. -/
theorem Machine.At.linking {sc : Scope} {b : Bool} {L : Loose} {Q : ObjectId → Prop} {s : Machine}
    {saving passes collects : Prop} (A : At sc b L Q s) (tame : sc.Tame)
    (during : passes → sc.passes)
    (keeps : collects → ∀ c, s.memory.collector = some c → c.debug.has .saveAll = true → saving) :
    At (.linking sc.names saving passes collects) b L Q s where
  sound := by
    have W := A.sound.within
    refine ⟨A.sound.balanced, fun passes => A.sound.files (during passes), fun hx pending => ?_,
      fun passes {_ _} hc hcb => tame _ (W.callbacks (during passes) hc hcb),
      fun _ may {c} hc => keeps (may.resolve_left nofun).2 c hc⟩
    obtain ⟨name, hook⟩ := W.pending hx pending
    exact ⟨name, tame _ hook⟩
  freeing := A.freeing
  collecting := A.collecting

/-! ## What stays -/

namespace Heap

variable {h h' h'' : Heap} {x y : ObjectId} {o p : Object}

/-- No root reference has been given or taken, what has one is still there, and nothing has come
up. -/
structure Anchors (h h' : Heap) : Prop where
  kept : ∀ x o, h.get? x = some o → 0 < o.rootCount → ∃ p, h'.get? x = some p
  old : ∀ x p, h'.get? x = some p → ∃ o, h.get? x = some o ∧ p.rootCount = o.rootCount

/-- Every object is still there, with all its references and root references. -/
def Swells (h h' : Heap) : Prop :=
  ∀ x o, h.get? x = some o →
    ∃ p, h'.get? x = some p ∧ o.rootCount ≤ p.rootCount ∧ o.references ⊆ p.references

/-- The host or another object refers to every object. -/
def Fed (h : Heap) : Prop := ∀ x o, h.get? x = some o → h.Rooted x ∨ ∃ r, x ∈ h.refs r

theorem Consistent.fed (C : h.Consistent) : h.Fed := fun _ _ => C.rooted_or_held

theorem Anchors.refl (h : Heap) : h.Anchors h :=
  ⟨fun _ o hx _ => ⟨o, hx⟩, fun _ p hp => ⟨p, hp, rfl⟩⟩

theorem Anchors.trans (one : h.Anchors h') (two : h'.Anchors h'') : h.Anchors h'' where
  kept x o hx root := by
    obtain ⟨p, hp⟩ := one.kept x o hx root
    obtain ⟨o', ho', same⟩ := one.old x p hp
    rw [hx, Option.some.injEq] at ho'
    subst ho'
    exact two.kept x p hp (same ▸ root)
  old x q hq := by
    obtain ⟨p, hp, second⟩ := two.old x q hq
    obtain ⟨o, ho, first⟩ := one.old x p hp
    exact ⟨o, ho, second.trans first⟩

theorem anchors_of_map
    (same : ∀ x, (h'.get? x).map (·.rootCount) = (h.get? x).map (·.rootCount)) : h.Anchors h' where
  kept x o hx _ := by
    have e := same x
    rw [hx, Option.map_some, Option.map_eq_some_iff] at e
    exact e.imp fun _ => And.left
  old x p hp := by
    have e := same x
    rw [hp, Option.map_some, eq_comm, Option.map_eq_some_iff] at e
    obtain ⟨o, ho, e⟩ := e
    exact ⟨o, ho, e.symm⟩

theorem Sheds.anchors (sheds : h.Sheds h') : h.Anchors h' where
  kept x o hx root := by
    -- an object that is held is reached, so it is kept
    have kept := sheds.kept x (.root ⟨o, hx, root⟩)
    rw [shape?_of_get? hx] at kept
    obtain ⟨p, hp, -⟩ := exists_of_shape? kept
    exact ⟨p, hp⟩
  old x p hp := by
    obtain ⟨o, ho, -, root⟩ := sheds.old x p hp
    exact ⟨o, ho, root⟩

theorem Swells.refl (h : Heap) : h.Swells h :=
  fun _ o hx => ⟨o, hx, Nat.le_refl _, List.Subset.refl _⟩

theorem Swells.trans (one : h.Swells h') (two : h'.Swells h'') : h.Swells h'' := by
  intro x o hx
  obtain ⟨p, hp, root, references⟩ := one x o hx
  obtain ⟨q, hq, root', references'⟩ := two x p hp
  exact ⟨q, hq, Nat.le_trans root root', List.Subset.trans references references'⟩

/-- References and root references are the same. -/
theorem swells_of_map (same : ∀ x, (h'.get? x).map (fun o => (o.rootCount, o.references)) =
    (h.get? x).map fun o => (o.rootCount, o.references)) : h.Swells h' := by
  intro x o hx
  have e := same x
  rw [hx, Option.map_some, Option.map_eq_some_iff] at e
  obtain ⟨p, hp, e⟩ := e
  rw [Prod.mk.injEq] at e
  exact ⟨p, hp, Nat.le_of_eq e.1.symm, fun _ mem => e.2 ▸ mem⟩

theorem swells_put (hx : h.get? x = some o) (root : o.rootCount ≤ p.rootCount)
    (references : o.references ⊆ p.references) : h.Swells (h.put x p) := by
  intro y q hy
  rw [get?_put]
  split
  · next e =>
    subst e
    rw [hx, Option.some.injEq] at hy
    subst hy
    exact ⟨p, rfl, root, references⟩
  · exact ⟨q, hy, Nat.le_refl _, List.Subset.refl _⟩

theorem swells_retain (run : h.retain x = .ok h') : h.Swells h' := by
  obtain ⟨o, hx, rfl⟩ := exists_of_retain run
  exact swells_put hx (Nat.le_succ _) (List.Subset.refl _)

theorem swells_addEdge (run : h.addEdge x y = .ok h') : h.Swells h' := by
  obtain ⟨o, p, hx, -, -, rfl⟩ := exists_of_addEdge run
  refine (swells_put (p := o.appendReference y) hx (Nat.le_refl _)
    (List.subset_append_left _ _)).trans ?_
  exact swells_of_map (map_get?_modify (by intro; rfl) y)

theorem Swells.refs (swells : h.Swells h') (hy : y ∈ h.refs x) : y ∈ h'.refs x := by
  obtain ⟨o, ho, mem⟩ := isSome_of_mem_refs hy
  obtain ⟨p, hp, -, references⟩ := swells x o ho
  rw [refs_of_get? hp]
  exact references mem

theorem Swells.rooted (swells : h.Swells h') (rooted : h.Rooted x) : h'.Rooted x := by
  obtain ⟨o, ho, pos⟩ := rooted
  obtain ⟨p, hp, root, -⟩ := swells x o ho
  exact ⟨p, hp, Nat.lt_of_lt_of_le pos root⟩

theorem Swells.reachable (swells : h.Swells h') (reach : h.Reachable x) : h'.Reachable x := by
  induction reach with
  | root rooted => exact .root (swells.rooted rooted)
  | step _ hy ih => exact .step ih (swells.refs hy)

/-- What is referred to stays so, as long as nothing new comes up. -/
theorem Swells.fed (swells : h.Swells h') (fed : h.Fed)
    (old : ∀ x p, h'.get? x = some p → ∃ o, h.get? x = some o) : h'.Fed := by
  intro x p hp
  obtain ⟨o, ho⟩ := old x p hp
  rcases fed x o ho with rooted | ⟨r, hr⟩
  · exact .inl (swells.rooted rooted)
  · exact .inr ⟨r, swells.refs hr⟩

end Heap

/-! ## Steps -/

namespace Machine

variable {sc : Scope} {b : Bool} {L L' : Loose} {Q : ObjectId → Prop} {s s' : Machine}
  {x : ObjectId}

/-- If hooks only link and no garbage is kept, no root reference is given or taken. -/
theorem Step.anchors (links : sc.Links) (discards : ¬ sc.saving)
    (step : Step sc (L, s) (L', s')) : s.memory.heap.Anchors s'.memory.heap := by
  rcases step.sheds_cases with sheds | ⟨x, o, script, hx, -, e⟩ | ⟨saving, -⟩ | ⟨-, x, y, run⟩ |
    ⟨deed, may, other⟩
  · exact sheds.anchors
  · rw [e]
    exact Heap.anchors_of_map (Heap.map_get?_put hx (by rfl))
  · exact absurd saving discards
  · exact Heap.anchors_of_map (Heap.map_get?_addEdge run fun _ => ⟨rfl, rfl⟩)
  · exact absurd may (links.not_may other)

theorem Steps.anchors {a b : Loose × Machine} (links : sc.Links) (discards : ¬ sc.saving)
    (steps : Steps sc a b) : a.2.memory.heap.Anchors b.2.memory.heap := by
  induction steps with
  | refl => exact .refl _
  | tail _ step ih => exact ih.trans (step.anchors links discards)

/-- If hooks only link, what is reachable stays so, whatever passes keep. -/
theorem Step.reachable (links : sc.Links) (step : Step sc (L, s) (L', s'))
    (reach : s.memory.heap.Reachable x) : s'.memory.heap.Reachable x := by
  rcases step.sheds_cases with sheds | ⟨y, o, script, hy, -, e⟩ | ⟨-, y, run⟩ | ⟨-, y, z, run⟩ |
    ⟨deed, may, other⟩
  · exact sheds.reachable.mpr reach
  · rw [e]
    have swells := Heap.swells_put (p := o.markFinalized) hy (Nat.le_refl _) (List.Subset.refl _)
    exact swells.reachable reach
  · exact (Heap.swells_retain run).reachable reach
  · exact (Heap.swells_addEdge run).reachable reach
  · exact absurd may (links.not_may other)

theorem Steps.reachable {a b : Loose × Machine} (links : sc.Links) (steps : Steps sc a b)
    (reach : a.2.memory.heap.Reachable x) : b.2.memory.heap.Reachable x := by
  induction steps with
  | refl => exact reach
  | tail _ step ih => exact step.reachable links ih

/-- Handles are given out to new objects only. -/
theorem Step.nextId (unallocated : ¬ sc.may .allocate) (step : Step sc (L, s) (L', s')) :
    s'.memory.heap.nextId = s.memory.heap.nextId := by
  cases step with
  | aside memory _ _ => rw [memory]
  | note _ | collecting _ | configure _ _ _ | disown _ | finalize _ _ | book _ _ _ _ _ _ _ => rfl
  | edit edit => exact edit.nextId
  | destroy hx _ _ _ run =>
    rw [Memory.exists_of_destroy hx run]
    rfl
  | allocate _ _ may => exact absurd may unallocated

theorem Steps.nextId {a b : Loose × Machine} (unallocated : ¬ sc.may .allocate)
    (steps : Steps sc a b) : b.2.memory.heap.nextId = a.2.memory.heap.nextId := by
  induction steps with
  | refl => rfl
  | tail _ step ih => exact (step.nextId unallocated).trans ih

/-- If nothing is allocated, what lives afterwards was there before. -/
theorem Reaches.exists_old (unallocated : ¬ sc.may .allocate) {p : Object}
    (reaches : Reaches sc b L s L' Q s') (hp : s'.memory.heap.get? x = some p) :
    ∃ o, s.memory.heap.get? x = some o ∧ p.kind = o.kind := by
  have old : x < s.memory.heap.nextId := by
    rw [← Steps.nextId unallocated reaches.steps]
    exact (reaches.there.sound.balanced.keyed hp).2.2
  obtain ⟨o, ho, kind, -⟩ := (Steps.later reaches.steps).old old hp
  exact ⟨o, ho, kind⟩

/-- Callbacks stay registered if nothing is configured. -/
theorem Step.callbacks (fixed : ¬ sc.may .configure) (step : Step sc (L, s) (L', s')) :
    s'.callbacks = s.callbacks := by
  cases step with
  | aside memory _ _ => rw [Machine.callbacks, memory, Machine.callbacks]
  | note _ | edit _ | finalize _ _ => rfl
  | collecting _ | disown _ => exact callbacks_of_map rfl fun _ => rfl
  | destroy hx _ _ _ run =>
    rw [Memory.exists_of_destroy hx run]
    exact callbacks_of_map rfl fun _ => rfl
  | book g saves r _ _ _ _ => cases saves <;> exact callbacks_of_map rfl fun _ => rfl
  | allocate kind typeName _ =>
    rw [Memory.allocate_eq]
    exact callbacks_of_map rfl fun _ => rfl
  | configure may _ _ => exact absurd may fixed

theorem Steps.callbacks {a b : Loose × Machine} (fixed : ¬ sc.may .configure)
    (steps : Steps sc a b) : b.2.callbacks = a.2.callbacks := by
  induction steps with
  | refl => rfl
  | tail _ step ih => exact (step.callbacks fixed).trans ih

end Machine

/-! ## Nothing dies -/

namespace Heap

variable {sc : Scope} {L L' : Loose} {h h' : Heap}

/-- An object that somebody refers to is not taken apart unless it is swept. -/
theorem Edit.swells (links : sc.Links) (unswept : ∀ x, ¬ sc.sweeps x)
    (edit : Edit sc (L, h) (L', h')) (B : h.Balanced L) (fed : h.Fed) : h.Swells h' := by
  cases edit with
  | mark unmarked => exact swells_of_map (unmarked.map_view fun _ => rfl)
  | lose hx => exact swells_of_map (map_get?_put hx (by rfl))
  | spare hx _ => exact swells_of_map (map_get?_put hx (by rfl))
  | hold hx => exact swells_of_map (map_get?_put hx (by rfl))
  | unlink hx _ cause =>
    obtain ⟨root, none, -⟩ := B.unreferenced hx (cause.resolve_right (unswept _))
    rcases fed _ _ hx with rooted | ⟨r, hr⟩
    · exact absurd rooted (not_rooted hx root)
    · exact absurd hr (not_mem_refs_of_inEdges_eq_zero none r)
  | save _ run => exact swells_retain run
  | addEdge _ run => exact swells_addEdge run
  | retain may _ | giveUpRoot may _ | cut may _ | setFinalizer may _ _ =>
    exact absurd may (links.not_may (by simp))

end Heap

namespace Machine

variable {sc : Scope} {L L' : Loose} {s s' : Machine}

theorem Step.swells (links : sc.Links) (unswept : ∀ x, ¬ sc.sweeps x)
    (step : Step sc (L, s) (L', s')) (B : s.memory.heap.Balanced L) (fed : s.memory.heap.Fed) :
    s.memory.heap.Swells s'.memory.heap := by
  cases step with
  | aside memory _ _ =>
    rw [memory]
    exact .refl _
  | note _ | collecting _ | configure _ _ _ | disown _ => exact .refl _
  | edit edit => exact edit.swells links unswept B fed
  | finalize hx _ =>
    exact Heap.swells_put (p := Object.markFinalized _) hx (Nat.le_refl _) (List.Subset.refl _)
  -- nobody refers to an object that is taken out
  | destroy hx _ root none _ =>
    rcases fed _ _ hx with rooted | ⟨r, hr⟩
    · exact absurd rooted (Heap.not_rooted hx root)
    · exact absurd hr (Heap.not_mem_refs_of_inEdges_eq_zero none r)
  | book g saves r _ _ _ _ =>
    exact Heap.swells_of_map (Memory.map_get?_book (fun _ _ => rfl) _ _ g saves r)
  | allocate _ _ may => exact absurd may (links.not_may (by simp))

/-- If hooks only link and nothing is swept, everything stays that somebody refers to. -/
theorem Steps.swells {a b : Loose × Machine} (links : sc.Links) (unswept : ∀ x, ¬ sc.sweeps x)
    (steps : Steps sc a b) (S : a.2.memory.Sound sc a.1) (fed : a.2.memory.heap.Fed) :
    a.2.memory.heap.Swells b.2.memory.heap ∧ b.2.memory.heap.Fed := by
  induction steps with
  | refl => exact ⟨.refl _, fed⟩
  | @tail t u steps step ih =>
    obtain ⟨swells, fed⟩ := ih
    have sound := Steps.sound steps S
    have more := step.swells links unswept sound.balanced fed
    have nextId := step.nextId (links.not_may (by simp))
    refine ⟨swells.trans more, more.fed fed fun x p hp => ?_⟩
    have old := ((step.sound sound).balanced.keyed hp).2.2
    obtain ⟨o, ho, -⟩ := step.later.old (nextId ▸ old) hp
    exact ⟨o, ho⟩

end Machine

/-! ## Collections -/

namespace Cycles.Course

variable {sc : Scope} {b : Bool} {n : Nat} {L : Loose} {Q : ObjectId → Prop} {fin : Finalization}
  {g : Int} {xs : List ObjectId} {options : PassOptions} {s : Machine} {names : Finset ObjectId}
  {x : ObjectId}

/-- Finalizers that only link free nothing, and neither the host nor the collector gets or loses a
root reference while they run. -/
theorem finalized_swells (k : Course sc b L Q fin g xs options s)
    (F : fin.Sound (.linking names False False False) b n)
    (A : At (.linking names False False False) b Loose.none (fun _ => False) s)
    (hn : s.memory.heap.unspent (.linking names False False False) ≤ n) :
    s.memory.heap.Swells k.finalized.memory.heap ∧
      s.memory.heap.Anchors k.finalized.memory.heap ∧
      k.finalized.memory.saved = s.memory.saved := by
  have links := Scope.linking_links names False False False
  have leads := k.finalizes_within F A hn
  have fed := A.consistent.fed
  exact ⟨(Steps.swells links (fun _ => id) leads.steps A.sound fed).1,
    Steps.anchors links id leads.steps,
    Steps.saved_eq (links.not_may (by simp)) And.left leads.steps⟩

/-- What finalizers that only link have not freed is all there to be collected. -/
theorem collected_eq (k : Course sc b L Q fin g xs options s)
    (swells : s.memory.heap.Swells k.finalized.memory.heap) : k.report.collected = k.garbage := by
  have live : k.unreachable.filter (!k.finalized.memory.heap.contains ·) = [] := by
    refine List.filter_eq_nil_iff.mpr fun x hx => ?_
    obtain ⟨o, ho⟩ := live_of_mem_members (k.mem_of_unreachable hx)
    obtain ⟨p, hp, -⟩ := swells x o ho
    simp [contains_iff.mpr ⟨p, hp⟩]
  rw [k.collected, live, List.nil_append]

end Cycles.Course

/-- The course of a pass that begins at `s`, whose finalizers only link and that tells nobody. -/
structure Pass.LinkedCourse (names : Finset ObjectId) (n : Nat) (c : Collector) (g : Generation)
    (s : Machine) extends Pass.Course (.linking names (c.debug.has .saveAll = true) True True)
      Loose.none (fun _ => False) (Hooks.ofPass n) g s where
  collector_same : collector = c
  /-- The collection begins where the pass does. -/
  opened_same : opened.memory = s.memory
  swells : s.memory.heap.Swells collection.finalized.memory.heap
  anchors : s.memory.heap.Anchors collection.finalized.memory.heap
  saved_same : collection.finalized.memory.saved = s.memory.saved
  /-- Nothing is done after the collection but to enter it into the books. -/
  booked : ∃ c', collection.after.memory.collector = some c' ∧
    ended.memory =
      collection.after.memory.book c' g (c.debug.has .saveAll) collection.report
  untold : ended.callbacks = []

theorem Pass.LinkedCourse.nodup_candidates {names : Finset ObjectId} {n : Nat} {c : Collector}
    {g : Generation} {s : Machine} (k : LinkedCourse names n c g s) :
    (k.collector.tracker.candidates g).Nodup :=
  k.toCourse.nodup_candidates (Hooks.ofPass_sound _ trivial
    (Scope.linking_collects names (c.debug.has .saveAll = true) True) n)

/-- A pass with hooks that only link, of which it has none to tell, takes its course. -/
theorem Pass.linked_course {sc : Scope} {s : Machine} {n : Nat} {c : Collector} (tame : sc.Tame)
    (passes : sc.passes) (A : At sc true Loose.none (fun _ => False) s)
    (hn : s.memory.heap.unspent sc ≤ n) (hc : s.memory.collector = some c)
    (untold : c.callbacks = []) (g : Generation) : Nonempty (LinkedCourse sc.names n c g s) := by
  have tamed := Scope.linking_tame sc.names (c.debug.has .saveAll = true) True True
  have links := Scope.linking_links sc.names (c.debug.has .saveAll = true) True True
  have I : At (.linking sc.names (c.debug.has .saveAll = true) True True) true Loose.none
      (fun _ => False) s := A.linking tame (fun _ => passes) fun _ c' hc' flag => by
    rw [hc, Option.some.injEq] at hc'
    exact hc' ▸ flag
  have P := Hooks.ofPass_sound _ trivial
    (Scope.linking_collects sc.names (c.debug.has .saveAll = true) True) n
  obtain ⟨k⟩ := Pass.body_course P I hn hc g
  have same := (k.opens_quietly c hc untold).aside.memory
  have collector_same : k.collector = c := Option.some.inj (k.collector_eq.symm.trans (same ▸ hc))
  -- callbacks are neither registered nor forgotten
  have silent : k.collection.after.callbacks = [] := by
    rw [Steps.callbacks (links.not_may (by simp)) k.collects.steps]
    exact (callbacks_of_collector hc).trans untold
  obtain ⟨c', hc'⟩ := k.collects.exists_collector hc
  have booked := k.closes_quietly c' hc' ((callbacks_of_collector hc').symm.trans silent)
  obtain ⟨swells, anchors, listed⟩ := k.collection.finalized_swells
    (Hooks.inPass_sound (.linking sc.names False False False) n).finalization
    (k.opens.there.linking tamed False.elim False.elim)
    (Nat.le_trans k.opens.unspent_le hn)
  rw [same] at swells anchors listed
  have saves : k.collector.debug.has .saveAll = c.debug.has .saveAll := by rw [collector_same]
  refine ⟨{ k with
    collector_same, opened_same := same, swells, anchors, saved_same := listed
    booked := ⟨c', hc', booked.trans
      (congrArg (k.collection.after.memory.book c' g · k.collection.report) saves)⟩
    untold := ?_ }⟩
  rw [Steps.callbacks (links.not_may (by simp)) k.closes.steps]
  exact silent

end Reclaim
