import Reclaim.Proofs.Ages
import Reclaim.Proofs.Classification

/-!
# Promotion

What a pass makes of the files of its collector. Between the moment at which the candidates are
taken and the moment at which the pass is entered into the books, hooks allocate and free
containers: what is filed and lives on stays where it is filed, and what is new is filed under the
youngest generation (`Machine.Steps.refiles`). The counts of the older generations change only with
the books (`Machine.Steps.precedes`), so all that the pass itself changes is what booking changes:
the survivors move to the next generation (`Tracker.mem_bucket_promoteAll`) and one count is
advanced. `Machine.Attained.pass_promotes` puts this together for every pass that a run comes to; at
which moments passes begin is said by `Machine.Attained.passes_begin`.
-/

set_option autoImplicit false

namespace Reclaim

open Machine

variable {sc : Scope} {b : Bool} {n : Nat} {L L' : Loose} {Q : ObjectId → Prop} {s s' t : Machine}
  {x y : ObjectId} {g i : Generation}

/-! ## Promoting survivors -/

namespace Tracker

variable {survivors : List ObjectId} {h : Heap} {tr : Tracker}

theorem promoteAll_of_dead (dead : h.get? x = none) :
    promoteAll g tr h.objects (x :: survivors) = promoteAll g tr h.objects survivors := by
  have found : h.objects[x]? = none := dead
  rw [promoteAll, found]

theorem promoteAll_of_live {o : Object} (live : h.get? x = some o) :
    promoteAll g tr h.objects (x :: survivors) =
      promoteAll g (promote g tr o).1 (h.put x (promote g tr o).2).objects survivors := by
  have found : h.objects[x]? = some o := live
  rw [promoteAll, found]
  rfl

/-- Objects keep their handles when one of them is promoted. -/
theorem keyed_promote (keyed : ∀ {x o}, h.get? x = some o → o.id = x) {o : Object}
    (hx : h.get? x = some o) {p : Object} (hy : (h.put x (promote g tr o).2).get? y = some p) :
    p.id = y := by
  rw [promote_object, Heap.get?_put] at hy
  split at hy
  · next same =>
    cases hy
    exact (keyed hx).trans same
  · exact keyed hy

/-- What is filed under the target stays there. -/
theorem mem_target_promoteAll (filed : y ∈ tr.bucket g) :
    y ∈ (promoteAll g tr h.objects survivors).1.bucket g := by
  induction survivors generalizing tr h with
  | nil => exact filed
  | cons x rest ih =>
    cases hx : h.get? x with
    | none =>
      rw [promoteAll_of_dead hx]
      exact ih filed
    | some o =>
      rw [promoteAll_of_live hx]
      apply ih
      -- an object that is there already is filed there again
      rw [mem_promote]
      by_cases same : o.id = y
      · exact .inl ⟨rfl, same⟩
      · exact .inr ⟨filed, fun moved => same moved.2⟩

/-- A live survivor is filed under the target. -/
theorem mem_target_of_survivor (keyed : ∀ {x o}, h.get? x = some o → o.id = x)
    (survives : y ∈ survivors) {p : Object} (live : h.get? y = some p) :
    y ∈ (promoteAll g tr h.objects survivors).1.bucket g := by
  induction survivors generalizing tr h with
  | nil => cases survives
  | cons x rest ih =>
    by_cases first : x = y
    · subst first
      rw [promoteAll_of_live live]
      apply mem_target_promoteAll
      rw [mem_promote]
      exact .inl ⟨rfl, keyed live⟩
    · have later : y ∈ rest := (List.mem_cons.mp survives).resolve_left (Ne.symm first)
      cases hx : h.get? x with
      | none =>
        rw [promoteAll_of_dead hx]
        exact ih keyed later live
      | some o =>
        rw [promoteAll_of_live hx]
        apply ih (keyed_promote keyed hx) later
        rw [Heap.get?_put, if_neg first]
        exact live

/-- What does not survive stays where it is filed. -/
theorem mem_bucket_promoteAll (keyed : ∀ {x o}, h.get? x = some o → o.id = x)
    (other : y ∉ survivors) :
    y ∈ (promoteAll g tr h.objects survivors).1.bucket i ↔ y ∈ tr.bucket i := by
  induction survivors generalizing tr h with
  | nil => exact Iff.rfl
  | cons x rest ih =>
    obtain ⟨differs, later⟩ := not_or.mp fun mem => other (List.mem_cons.mpr mem)
    cases hx : h.get? x with
    | none =>
      rw [promoteAll_of_dead hx]
      exact ih keyed later
    | some o =>
      have ne : ¬ o.id = y := fun same => differs (same.symm.trans (keyed hx))
      rw [promoteAll_of_live hx, ih (keyed_promote keyed hx) later, mem_promote]
      simp only [ne, and_false, false_or, not_false_eq_true, and_true]

end Tracker

/-! ## Files along a run -/

/-- No pass has been entered into the books between two memories: what is filed and lives on stays
where it is filed, and new containers are filed under the youngest generation. -/
structure Memory.Refiles (m m' : Memory) : Prop where
  kept : ∀ {c c' x i p}, m.collector = some c → m'.collector = some c' → x ∈ c.tracker.bucket i →
    m'.heap.get? x = some p → x ∈ c'.tracker.bucket i
  new : ∀ {c' x p}, m'.collector = some c' → m'.heap.get? x = some p → p.kind = .container →
    m.heap.nextId ≤ x → x ∈ c'.tracker.bucket .youngest

namespace Memory

variable {m m' m'' : Memory}

/-- No object is new, and what is filed of those that are left is filed as it was. -/
theorem Refiles.of_map (B : m.heap.Balanced L) {f : Collector → Collector}
    (collector : m'.collector = m.collector.map f)
    (old : ∀ {x p}, m'.heap.get? x = some p → ∃ o, m.heap.get? x = some o)
    (files : ∀ {c x i p}, m.collector = some c → m'.heap.get? x = some p →
      x ∈ c.tracker.bucket i → x ∈ (f c).tracker.bucket i) :
    m.Refiles m' where
  kept hc hc' filed live := by
    rw [collector, hc] at hc'
    cases hc'
    exact files hc live filed
  new {_ x _} _ live _ fresh := by
    obtain ⟨o, ho⟩ := old live
    exact absurd (B.keyed ho).2.2 (Nat.not_lt_of_le fresh)

/-- The collector has not been changed at all. -/
theorem Refiles.of_heap (B : m.heap.Balanced L) (collector : m'.collector = m.collector)
    (old : ∀ {x p}, m'.heap.get? x = some p → ∃ o, m.heap.get? x = some o) : m.Refiles m' :=
  .of_map (f := id) B (by rw [collector, Option.map_id_fun, id]) old fun _ _ => id

theorem Refiles.refl (B : m.heap.Balanced L) : m.Refiles m := .of_heap B rfl fun live => ⟨_, live⟩

end Memory

namespace Machine

/-- A step in which no pass comes to its end leaves the files as they are. -/
theorem Step.refiles (step : Step sc (L, s) (L', s')) (calm : ¬ sc.passes)
    (B : s.memory.heap.Balanced L) : s.memory.Refiles s'.memory := by
  cases step with
  | aside memory _ _ =>
    rw [memory]
    exact .refl B
  | note _ => exact .refl B
  | collecting _ | disown _ =>
    exact .of_map B rfl (fun live => ⟨_, live⟩) fun _ _ => id
  | configure _ hc reconfigured =>
    refine .of_map B rfl (fun live => ⟨_, live⟩) fun {c x i p} hc' _ filed => ?_
    cases hc.symm.trans hc'
    rw [Tracker.bucket, reconfigured.buckets]
    exact filed
  | edit edit =>
    refine .of_heap B rfl fun live => ?_
    obtain ⟨o, ho, -⟩ := edit.exists_old live
    exact ⟨o, ho⟩
  | finalize hx _ =>
    refine .of_heap B rfl fun {y p} live => ?_
    rw [log_memory, withHeap_heap, Heap.get?_put] at live
    split at live
    · next same => exact ⟨_, same ▸ hx⟩
    · exact ⟨p, live⟩
  | @destroy _ _ x o _ hx _ _ _ run =>
    rw [Memory.exists_of_destroy hx run]
    refine .of_map (f := fun c => { c with tracker := c.tracker.deallocated o }) B rfl
      (fun {y p} live => ?_) fun {c y i p} _ live filed => ?_
    all_goals rw [withMemory_memory, Heap.get?_erase] at live
    · split at live
      · cases live
      · exact ⟨p, live⟩
    · refine (Tracker.mem_deallocated _ _ _).mpr ⟨filed, fun struck => ?_⟩
      -- only the object that is gone has been struck from a bucket
      rw [if_pos ((B.keyed hx).1.symm.trans struck.2.2)] at live
      cases live
  | book _ _ _ passes _ _ _ => exact absurd passes calm
  | allocate kind typeName _ =>
    rw [Memory.allocate_eq]
    constructor
    · intro c c' x i p hc hc' filed _
      rw [withMemory_memory, hc] at hc'
      cases hc'
      exact (Tracker.mem_allocated _ _ _).mpr (.inl filed)
    · intro c' x p hc' live container fresh
      obtain ⟨c, hc, rfl⟩ := Option.map_eq_some_iff.mp hc'
      rw [withMemory_memory, Heap.get?_allocate] at live
      split at live
      · next new =>
        cases live
        exact (Tracker.mem_allocated _ _ _).mpr (.inr ⟨container, rfl, new⟩)
      · exact absurd (B.keyed live).2.2 (Nat.not_lt_of_le fresh)

/-- As long as no pass comes to its end, what is filed and lives on stays where it is filed, and new
containers are filed under the youngest generation. -/
theorem Steps.refiles {a b : Loose × Machine} (steps : Steps sc a b) (calm : ¬ sc.passes)
    (S : a.2.memory.Sound sc a.1)
    (files : ∀ {c}, a.2.memory.collector = some c → c.tracker.Files a.2.memory.heap) :
    a.2.memory.Refiles b.2.memory := by
  induction steps with
  | refl => exact .refl S.balanced
  | @tail b' b'' steps step ih =>
    have filed := step.refiles calm (Steps.sound steps S).balanced
    have before {c'' : Collector} (hc'' : b''.2.memory.collector = some c'') :
        ∃ c', b'.2.memory.collector = some c' := by
      rw [← Option.isSome_iff_exists, ← step.collector, hc'']
      rfl
    constructor
    · intro c c'' x i p hc hc'' mem live
      obtain ⟨c', hc'⟩ := before hc''
      -- what is filed at the start has an old handle, so it was live before the last step
      obtain ⟨o, ho, -⟩ := (files hc).exists_container mem
      have old := Nat.lt_of_lt_of_le (S.balanced.keyed ho).2.2 (Steps.later steps).nextId
      obtain ⟨o', ho', -⟩ := step.later.old old live
      exact filed.kept hc' hc'' (ih.kept hc hc' mem ho') live
    · intro c'' x p hc'' live container fresh
      obtain ⟨c', hc'⟩ := before hc''
      rcases Nat.lt_or_ge x b'.2.memory.heap.nextId with old | new
      · obtain ⟨o, ho, kind, -⟩ := step.later.old old live
        exact filed.kept hc' hc'' (ih.new hc' ho (kind.symm.trans container) fresh) live
      · exact filed.new hc'' live container new

end Machine

/-! ## Counts along a run -/

/-- A pace before another one. Passes are only ever added to the books, and the counts of the older
generations change with them. -/
structure Pace.Precedes (p p' : Pace) : Prop where
  collections : ∀ i, p.books.collections.get i ≤ p'.books.collections.get i
  counts : p'.books.collections = p.books.collections → p'.counts = p.counts

namespace Pace

variable {p p' p'' : Pace}

theorem Precedes.refl (p : Pace) : p.Precedes p := ⟨fun _ => Nat.le_refl _, fun _ => rfl⟩

theorem Precedes.trans (one : p.Precedes p') (two : p'.Precedes p'') : p.Precedes p'' where
  collections i := Nat.le_trans (one.collections i) (two.collections i)
  counts same := by
    -- what lies between equal books is equal to them
    have between : p'.books.collections = p.books.collections := by
      apply Vector.ext
      intro i hi
      have low := one.collections ⟨i, hi⟩
      have high := two.collections ⟨i, hi⟩
      rw [same] at high
      exact Nat.le_antisymm high low
    rw [two.counts (same.trans between.symm), one.counts between]

/-- A pass that is entered into the books is a pass more. -/
theorem precedes_pass (p : Pace) (g : Generation) (collected uncollectable : Nat) :
    p.Precedes (p.pass g collected uncollectable) where
  collections i := by
    show p.books.collections.get i ≤ (p.books.collections.update g (· + 1)).get i
    rw [PerGeneration.get_update]
    split
    · next same => exact same ▸ Nat.le_succ _
    · exact Nat.le_refl _
  counts same := by
    have more : (p.books.collections.update g (· + 1)).get g = p.books.collections.get g + 1 := by
      rw [PerGeneration.get_update, if_pos rfl]
    have none : p.books.collections.update g (· + 1) = p.books.collections := same
    rw [none] at more
    exact absurd more.symm (Nat.succ_ne_self _)

end Pace

namespace Machine

/-- No step takes a pass from the books, or changes older counts without adding one. -/
theorem Step.precedes (step : Step sc (L, s) (L', s')) {p : Pace} (hp : s.memory.pace? = some p) :
    ∃ p', s'.memory.pace? = some p' ∧ p.Precedes p' := by
  cases step with
  | aside memory _ _ =>
    rw [memory]
    exact ⟨p, hp, .refl p⟩
  | note _ | edit _ | finalize _ _ => exact ⟨p, hp, .refl p⟩
  | collecting _ | disown _ =>
    refine ⟨p, ?_, .refl p⟩
    rw [← hp]
    show Option.map _ (Option.map _ _) = _
    rw [Option.map_map]
    rfl
  | @configure _ _ c c' _ hc reconfigured =>
    refine ⟨c'.pace, ?_, fun i => ?_, fun _ => ?_⟩
    · show Option.map _ (Option.map _ _) = _
      rw [hc]
      rfl
    all_goals
      rw [Memory.pace?, hc] at hp
      cases hp
    · show c.tracker.collections.get i ≤ c'.tracker.collections.get i
      rw [reconfigured.collections]
    · show (fun i => if i = Generation.youngest then 0 else c'.tracker.counts.get i) = _
      rw [reconfigured.counts]
      rfl
  | destroy _ _ _ _ run =>
    exact ⟨p, (Memory.pace?_destroy run).trans hp, .refl p⟩
  | book g saves r _ _ hc _ =>
    rw [Memory.pace?, hc] at hp
    cases hp
    exact ⟨_, Memory.pace?_book hc g saves r, Pace.precedes_pass _ g _ _⟩
  | allocate kind typeName _ =>
    exact ⟨p, (Memory.pace?_allocate _ kind typeName).trans hp, .refl p⟩

theorem Steps.precedes {a b : Loose × Machine} (steps : Steps sc a b) {p : Pace}
    (hp : a.2.memory.pace? = some p) : ∃ p', b.2.memory.pace? = some p' ∧ p.Precedes p' := by
  induction steps with
  | refl => exact ⟨p, hp, .refl p⟩
  | tail _ step ih =>
    obtain ⟨p', hp', precedes⟩ := ih
    obtain ⟨p'', hp'', next⟩ := step.precedes hp'
    exact ⟨p'', hp'', precedes.trans next⟩

theorem Round.books {phase : Phase} {info : PassInfo} {cbs : List Callback}
    (round : Round sc phase info cbs s s') : s'.memory.books? = s.memory.books? := by
  induction round with
  | nil => rfl
  | cons _ discreet _ ih => exact ih.trans discreet.books

end Machine

namespace Pass

variable {hooks : PassHooks} {c : Collector}

/-- Nothing is entered into the books while a pass opens and collects, so the counts of the older
generations are still those that the pass has begun with. -/
theorem Course.counts (k : Course sc L Q hooks g s) (H : hooks.Sound sc n) (A : At sc true L Q s)
    (hn : s.memory.heap.unspent sc ≤ n) (hc : s.memory.collector = some c) {c' : Collector}
    (hc' : k.collection.after.memory.collector = some c') : c'.pace.counts = c.pace.counts := by
  obtain ⟨_, s₁, s₂, run, -, round, discreet, -⟩ := opening_leads (g := g) H A hn hc
  rw [k.opening_eq] at run
  cases run
  have collecting : Discreet sc.calm true k.opened k.collection.after := k.collection.leads.conduct
  have books : k.collection.after.memory.books? = s.memory.books? :=
    collecting.books.trans (discreet.books.trans round.books)
  obtain ⟨p, hp, precedes⟩ := Steps.precedes k.collects.steps (congrArg (Option.map _) hc)
  rw [Memory.pace?, hc', Option.map_some, Option.some.injEq] at hp
  subst hp
  apply precedes.counts
  rw [Memory.books?, Memory.books?, hc, hc', Option.map_some, Option.map_some,
    Option.some.injEq] at books
  exact congrArg Books.collections books

/-! ## What a pass does to the files -/

/-- What a pass over `g` makes of the files of its collector. It has begun with `counts`; when the
candidates were taken the collector was `taken`, with the heap `opened`, and when the pass has been
entered into the books it is `booked`, with the heap `h`. -/
structure Promoted (g : Generation) (counts : PerGeneration Nat) (taken : Collector) (opened : Heap)
    (booked : Collector) (h : Heap) : Prop where
  /-- A candidate that lives on, and was not about to be freed, grows older. -/
  promoted : ∀ i ≤ g, ∀ x ∈ taken.tracker.bucket i, ∀ o, opened.get? x = some o →
    o.freeing = false → ∀ p, h.get? x = some p →
      x ∈ booked.tracker.bucket g.next ∧ p.generation = g.next.val
  /-- What is filed under an older generation stays there as long as it lives. -/
  stays : ∀ i, g < i → ∀ x ∈ taken.tracker.bucket i, ∀ p, h.get? x = some p →
    x ∈ booked.tracker.bucket i
  /-- Containers that finalizers have allocated are filed under the youngest generation. -/
  new : ∀ x, opened.nextId ≤ x → ∀ p, h.get? x = some p → p.kind = .container →
    x ∈ booked.tracker.bucket .youngest
  /-- Nothing dead is filed. -/
  live : ∀ i, ∀ x ∈ booked.tracker.bucket i, ∃ p, h.get? x = some p
  counted : ∀ i, booked.tracker.counts.get i =
    if i ≤ g then 0 else if g.older? = some i then counts.get i + 1 else counts.get i

end Pass

/-- Survivors are the members that are live at the end, whatever way they have taken. -/
theorem Cycles.Course.mem_survivors {fin : Finalization} {xs : List ObjectId} {age : Int}
    {options : PassOptions} (k : Cycles.Course sc b L Q fin age xs options s) (A : At sc b L Q s) :
    x ∈ k.report.survivors ↔
      x ∈ Cycles.members s.memory.heap xs ∧ ∃ p, k.after.memory.heap.get? x = some p := by
  constructor
  · exact k.member_of_survivor
  · rintro ⟨member, p, live⟩
    rw [k.survivors, List.mem_filter, Cycles.contains_iff]
    refine ⟨?_, p, live⟩
    by_cases held : x ∈ k.reachable
    · exact List.mem_append_left _ (List.mem_append_left _ held)
    -- a member that is live at the end was so when the finalizers had run
    have unreachable : x ∈ k.unreachable :=
      (k.parted.mem_unreachable x).mpr ⟨member, fun h => held ((k.parted.mem_reachable x).mpr h)⟩
    have left : x ∈ k.unreachable.filter (k.finalized.memory.heap.contains ·) := by
      refine List.mem_filter.mpr ⟨unreachable, ?_⟩
      cases hx : k.finalized.memory.heap.get? x with
      | none =>
        rw [k.dead_of_freed A unreachable hx] at live
        cases live
      | some o => exact Cycles.contains_iff.mpr ⟨o, hx⟩
    by_cases again : x ∈ k.report.resurrected
    · exact List.mem_append_left _ (List.mem_append_right _ again)
    have garbage : x ∈ k.garbage :=
      (k.again.mem_unreachable x).mpr ⟨left, fun h => again ((k.again.mem_reachable x).mpr h)⟩
    cases saves : options.saveGarbage with
    | true => exact List.mem_append_right _ (by rwa [if_pos rfl])
    | false =>
      rw [k.gone saves x garbage] at live
      cases live

namespace Pass

variable {hooks : PassHooks} {c : Collector}

/-- The counts after a pass, by the pace of the collector that it has begun with. -/
theorem counts_book {m : Memory} {c₂ c' : Collector} (hc₂ : m.collector = some c₂) {saves : Bool}
    {r : CycleReport} (hc' : (m.book c₂ g saves r).collector = some c')
    (same : c₂.pace.counts = c.pace.counts) (i : Generation) :
    c'.tracker.counts.get i = if i ≤ g then 0
      else if g.older? = some i then c.tracker.counts.get i + 1 else c.tracker.counts.get i := by
  have counted : c'.tracker.counts = ((Tracker.promoteAll g.next c₂.tracker m.heap.objects
      r.survivors).1.countPass g).counts := by
    unfold Memory.book at hc'
    rw [hc₂] at hc'
    cases saves <;> cases hc' <;> rfl
  rw [counted, Tracker.counts_countPass]
  by_cases covered : i ≤ g
  · rw [if_pos covered, if_pos covered]
  -- promoting survivors leaves the count alone, as it is that of an older generation
  · have older : i ≠ .youngest := fun youngest => covered (youngest ▸ Fin.zero_le g)
    have promoted := congrArg (Pace.counts · i)
      (Tracker.pace_promoteAll c₂.stats g.next r.survivors c₂.tracker m.heap.objects)
    have begun := congrFun same i
    simp only [Collector.pace, Tracker.pace, if_neg older] at promoted begun
    rw [promoted, begun]

namespace Course

variable (k : Course sc L Q hooks g s)
include k

theorem saves (H : hooks.Sound sc n) (on : (options k.collector.debug).saveGarbage = true) :
    sc.saving ∧ ∀ x ∈ k.collection.report.collected, x < k.collection.after.memory.heap.nextId :=
  ⟨k.opens.there.sound.within.saving H.passes H.may k.collector_eq on, fun _ hx =>
    k.collection.old k.opens.there.calm
      (k.collection.mem_of_unreachable (k.collection.unreachable_of_collected hx))⟩

/-- When a pass is entered into the books, its candidates are promoted. -/
theorem promotes (H : hooks.Sound sc n) (A : At sc true L Q s)
    (hn : s.memory.heap.unspent sc ≤ n) (hc : s.memory.collector = some c) :
    ∃ due booked c', book g (options k.collector.debug) k.collection.report k.collection.after =
        .ok due booked ∧ booked.memory.collector = some c' ∧
      Promoted g c.tracker.counts k.collector k.opened.memory.heap c' booked.memory.heap := by
  have opened := k.opens.there
  have collected := k.collects.there
  have files : k.collector.tracker.Files k.opened.memory.heap :=
    opened.sound.files H.passes k.collector_eq
  obtain ⟨c₂, hc₂⟩ := k.collects.exists_collector hc
  have refiles : k.opened.memory.Refiles k.collection.after.memory :=
    Steps.refiles k.collection.leads.steps id opened.calm.sound (opened.sound.files H.passes)
  have keyed {x : ObjectId} {o : Object} (ho : k.collection.after.memory.heap.get? x = some o) :
      o.id = x := (collected.sound.balanced.keyed ho).1
  obtain ⟨run, reaches⟩ := book_leads H.passes collected hc₂ g (k.saves H) fun x =>
    survivor opened files k.collection
  obtain ⟨c', hc', buckets, -⟩ := Memory.collector_book k.collection.after.memory c₂ g
    (options k.collector.debug).saveGarbage k.collection.report hc₂
  have member {x : ObjectId} (survives : x ∈ k.collection.report.survivors) :=
    ((k.collection.mem_survivors opened.calm).mp survives).1
  refine ⟨_, _, c', run, hc', ?_, ?_, ?_, ?_, counts_book hc₂ hc' (k.counts H A hn hc hc₂)⟩
  · intro i le x filed o ho unqueued p hp
    rw [withMemory_memory, Memory.get?_book, Option.map_eq_some_iff] at hp
    obtain ⟨q, hq, rfl⟩ := hp
    obtain ⟨o', ho', container, -⟩ := files.exists_container filed
    cases ho.symm.trans ho'
    have candidate := (k.collector.tracker.mem_candidates g).mpr ⟨i, le, filed⟩
    have survives := (k.collection.mem_survivors opened.calm).mpr
      ⟨Cycles.mem_members.mpr ⟨candidate, o, ho, container, unqueued⟩, q, hq⟩
    rw [if_pos survives, buckets]
    exact ⟨Tracker.mem_target_of_survivor keyed survives hq, rfl⟩
  · intro i older x filed p hp
    rw [withMemory_memory, Memory.get?_book, Option.map_eq_some_iff] at hp
    obtain ⟨q, hq, -⟩ := hp
    -- what is filed under an older generation is no candidate
    have other : x ∉ k.collection.report.survivors := fun survives => by
      obtain ⟨j, le, filed'⟩ := (k.collector.tracker.mem_candidates g).mp
        (Cycles.mem_members.mp (member survives)).1
      rw [files.unique filed' filed] at le
      exact absurd older (not_lt.mpr le)
    rw [buckets, Tracker.mem_bucket_promoteAll keyed other]
    exact refiles.kept k.collector_eq hc₂ filed hq
  · intro x fresh p hp container
    rw [withMemory_memory, Memory.get?_book, Option.map_eq_some_iff] at hp
    obtain ⟨q, hq, rfl⟩ := hp
    have other : x ∉ k.collection.report.survivors := fun survives => by
      obtain ⟨-, o, ho, -⟩ := Cycles.mem_members.mp (member survives)
      exact absurd (opened.sound.balanced.keyed ho).2.2 (Nat.not_lt_of_le fresh)
    rw [if_neg other] at container
    rw [buckets, Tracker.mem_bucket_promoteAll keyed other]
    exact refiles.new hc₂ hq container fresh
  · intro i x filed
    obtain ⟨p, hp, -⟩ := (reaches.there.sound.files H.passes hc').exists_container filed
    exact ⟨p, hp⟩

/-- If the garbage is kept, nothing dies once the finalizers have run, so what they have made
reachable again lives on. -/
theorem live_of_resurrected (keeps : (options k.collector.debug).saveGarbage = true)
    (resurrected : x ∈ k.collection.report.resurrected) :
    ∃ p, k.collection.after.memory.heap.get? x = some p := by
  have left := (List.mem_filter.mp (k.collection.again.sub_reachable.subset resurrected)).2
  obtain ⟨o, ho⟩ := Cycles.contains_iff.mp left
  have same := k.collection.saved keeps x
  rw [ho, Option.map_some, Option.map_eq_some_iff] at same
  obtain ⟨p, hp, -⟩ := same
  exact ⟨p, hp⟩

/-- What is reported as resurrected and is live when the pass is entered into the books has been
promoted with the other survivors. -/
theorem promoted_of_resurrected {c' : Collector} {counts : PerGeneration Nat} {h : Heap}
    (promoted : Promoted g counts k.collector k.opened.memory.heap c' h)
    (resurrected : x ∈ k.collection.report.resurrected) {p : Object} (live : h.get? x = some p) :
    p.generation = g.next.val ∧ x ∈ c'.tracker.bucket g.next := by
  have member := k.collection.mem_of_unreachable
    (k.collection.unreachable_of_resurrected resurrected)
  obtain ⟨candidate, o, ho, -, unqueued⟩ := Cycles.mem_members.mp member
  obtain ⟨i, le, filed⟩ := (k.collector.tracker.mem_candidates g).mp candidate
  exact (promoted.promoted i le x filed o ho unqueued p live).symm

end Course

/-- A pass runs to its end, and promotes its candidates when it is entered into the books. -/
theorem run_course (H : hooks.Sound sc n)
    (A : At sc true L Q (s.mapCollector ({ · with collecting := true })))
    (hn : s.memory.heap.unspent sc ≤ n) (hc : s.memory.collector = some c) (g : Generation) :
    ∃ (k : Course sc L Q hooks g (s.mapCollector ({ · with collecting := true })))
      (due : Option Generation) (booked : Machine) (c' : Collector),
      run hooks g s = .ok k.outcome (k.ended.mapCollector ({ · with collecting := false })) ∧
      book g (options k.collector.debug) k.collection.report k.collection.after =
        .ok due booked ∧
      booked.memory.collector = some c' ∧
      Promoted g c.tracker.counts k.collector k.opened.memory.heap c' booked.memory.heap := by
  have marked : (s.mapCollector ({ · with collecting := true })).memory.collector =
      some { c with collecting := true } := congrArg (Option.map _) hc
  obtain ⟨k⟩ := body_course H A hn marked g
  obtain ⟨due, booked, c', books, hc', promoted⟩ := k.promotes H A hn marked
  exact ⟨k, due, booked, c', run_of_body k.body_eq, books, hc', promoted⟩

end Pass

namespace Machine

/-- A pass that begins in the course of an operation takes its course. -/
theorem Attained.pass_course (run : Attained s) {op : Op}
    (amid : Steps (s.memory.scope op) (Loose.none, s.forget) (L, t)) {c : Collector}
    (hc : t.memory.collector = some c)
    (enough : t.memory.heap.unspent (s.memory.scope op) ≤ n) (g : Generation) :
    ∃ (k : Pass.Course (s.memory.scope op) L (fun _ => True) (Hooks.ofPass n) g
        (t.mapCollector ({ · with collecting := true })))
      (due : Option Generation) (booked : Machine) (c' : Collector),
      Pass.run (Hooks.ofPass n) g t =
        .ok k.outcome (k.ended.mapCollector ({ · with collecting := false })) ∧
      Pass.book g (Pass.options k.collector.debug) k.collection.report k.collection.after =
        .ok due booked ∧
      booked.memory.collector = some c' ∧
      Pass.Promoted g c.tracker.counts k.collector k.opened.memory.heap c' booked.memory.heap :=
  have marked : (t.mapCollector ({ · with collecting := true })).memory.collector =
      some { c with collecting := true } := congrArg (Option.map _) hc
  Pass.run_course (Hooks.ofPass_sound (s.memory.scope op) trivial trivial n)
    (run.during (amid.tail (.collecting true)) marked rfl) enough hc g

/-- Promotion by a pass, whatever finalizers of a host do. Let a pass over `g` begin at any moment
`t` of an operation on an attained machine. It runs to its end. When it is entered into the books,
the candidates that live on and were not about to be freed are filed under the next generation and
have its age; what was filed under an older generation is filed there still; what has been allocated
since the candidates were taken is filed under the youngest generation; and the counts up to `g`
start again while the next one is advanced. -/
theorem Attained.pass_promotes (run : Attained s) {op : Op}
    (amid : Steps (s.memory.scope op) (Loose.none, s.forget) (L, t)) {c : Collector}
    (hc : t.memory.collector = some c)
    (enough : t.memory.heap.unspent (s.memory.scope op) ≤ n) (g : Generation) :
    ∃ (k : Pass.Trace (Hooks.ofPass n) g (t.mapCollector ({ · with collecting := true })))
      (due : Option Generation) (booked : Machine) (c' : Collector),
      Pass.run (Hooks.ofPass n) g t =
        .ok k.outcome (k.ended.mapCollector ({ · with collecting := false })) ∧
      Pass.book g (Pass.options k.collector.debug) k.report k.collected = .ok due booked ∧
      booked.memory.collector = some c' ∧
      Pass.Promoted g c.tracker.counts k.collector k.opened.memory.heap c' booked.memory.heap := by
  obtain ⟨k, promoted⟩ := run.pass_course amid hc enough g
  exact ⟨k.trace, promoted⟩

/-- The machine of `heirloom` when its pass is asked for. -/
def bequest : Machine := (attended.performAll heirloom.dropLast).2

theorem pass_promotes_bequest :
    ∃ (k : Pass.Trace (Hooks.ofPass 1) .youngest
        (bequest.forget.mapCollector ({ · with collecting := true })))
      (booked : Machine) (counts : PerGeneration Nat) (c' : Collector),
      Pass.Promoted .youngest counts k.collector k.opened.memory.heap c' booked.memory.heap ∧
      k.outcome.collected = 1 ∧ c'.tracker.counts.get 0 = 0 ∧
      k.ended.memory.collector.map (·.tracker.buckets.toList.map (·.toList)) =
        some [[3], [1], []] := by
  have begun : Attained (({} : Machine).perform (.raw (.attach {}))).2 :=
    .perform (.start none rfl) rfl
  have attained : Attained bequest := begun.performAll rfl
  have present : bequest.memory.collector.isSome = true := by decide +kernel
  obtain ⟨c, hc⟩ := Option.isSome_iff_exists.mp present
  have budget := bequest.memory.unspent_le_budget (.call (.collect 0))
  have one : bequest.memory.finalizerBudget + Op.installs (.call (.collect 0)) = 1 := by
    decide +kernel
  obtain ⟨k, due, booked, c', run, -, -, promoted⟩ :=
    attained.pass_promotes (s := bequest) (t := bequest.forget) .refl hc (one ▸ budget) .youngest
  have facts : (match Pass.run (Hooks.ofPass 1) .youngest bequest.forget with
      | .ok outcome s => some (outcome.collected,
          s.memory.collector.map (·.tracker.buckets.toList.map (·.toList)))
      | .error _ _ => none) = some (1, some [[3], [1], []]) := by decide +kernel
  rw [run, Option.some.injEq, Prod.mk.injEq] at facts
  refine ⟨k, booked, _, c', promoted, facts.1, promoted.counted 0, ?_⟩
  rw [← facts.2]
  show _ = Option.map _ (Option.map _ k.ended.memory.collector)
  rw [Option.map_map]
  rfl

/-- What a pass reports as resurrected, whatever finalizers of a host do. The report is made up when
the finalizers of the pass have run, and the garbage is swept after that. So what is reported is
live when the pass is entered into the books, and has been promoted, or it has been freed by then as
something that nobody could reach; the latter only if the garbage is not kept. -/
theorem Attained.resurrected_promoted_or_freed (run : Attained s) {op : Op}
    (amid : Steps (s.memory.scope op) (Loose.none, s.forget) (L, t)) {c : Collector}
    (hc : t.memory.collector = some c)
    (enough : t.memory.heap.unspent (s.memory.scope op) ≤ n) (g : Generation) :
    ∃ (k : Pass.Trace (Hooks.ofPass n) g (t.mapCollector ({ · with collecting := true })))
      (due : Option Generation) (booked : Machine) (c' : Collector),
      Pass.run (Hooks.ofPass n) g t =
        .ok k.outcome (k.ended.mapCollector ({ · with collecting := false })) ∧
      Pass.book g (Pass.options k.collector.debug) k.report k.collected = .ok due booked ∧
      booked.memory.collector = some c' ∧
      ∀ x ∈ k.outcome.resurrected,
        (∃ p, booked.memory.heap.get? x = some p ∧ p.generation = g.next.val ∧
          x ∈ c'.tracker.bucket g.next) ∨
        (k.collector.debug.has .saveAll = false ∧ booked.memory.heap.get? x = none ∧
          ∃ m ∈ booked.journal, m.event = .freeing x ∧ ¬ m.memory.heap.Reachable x) := by
  obtain ⟨k, due, booked, c', ran, books, hc', promoted⟩ := run.pass_course amid hc enough g
  have steps := amid.tail (.collecting true)
  refine ⟨k.trace, due, booked, c', ran, books, hc', fun x mem => ?_⟩
  have resurrected : x ∈ k.collection.report.resurrected := k.resurrected ▸ mem
  have opened := k.opens.there
  cases hx : booked.memory.heap.get? x with
  | some p =>
    exact .inl ⟨p, rfl, k.promoted_of_resurrected promoted resurrected hx⟩
  | none =>
    -- booking frees nothing, so the object has gone before
    obtain ⟨c₂, hc₂⟩ := k.collects.exists_collector (congrArg (Option.map _) hc)
    rw [Pass.book_apply hc₂] at books
    cases books
    have dead := hx
    rw [withMemory_memory, Memory.get?_book, Option.map_eq_none_iff] at dead
    have member := k.collection.mem_of_unreachable
      (k.collection.unreachable_of_resurrected resurrected)
    obtain ⟨-, o, ho, -⟩ := Cycles.mem_members.mp member
    have path := Relation.ReflTransGen.trans steps k.collects.steps
    have settled := (run.begun op).sound
    refine .inr ⟨?_, rfl, ?_⟩
    · refine Bool.eq_false_iff.mpr fun keeps => ?_
      obtain ⟨p, hp⟩ := k.live_of_resurrected keeps resurrected
      cases dead.symm.trans hp
    · rcases Steps.freeing path (k.collection.old opened.calm member) dead with
        ⟨old, never⟩ | ⟨m, mem, e⟩
      · have later := Steps.later (Relation.ReflTransGen.trans steps k.opens.steps)
        rw [later.dead old never] at ho
        cases ho
      · have fair := Steps.fair path settled (fun m mem => absurd mem List.not_mem_nil) m mem
        exact ⟨m, mem, e, (fair.freed x e).2⟩

/-- A container that has survived a pass, a younger one that refers to itself and to the older one,
and a third one that refers to itself and whose finalizer hangs it on the oldest one. The host has
let go of all three. -/
def forlorn : Machine :=
  (attended.performAll [
    .call (.allocate .container "node"), .call (.collect 0),
    .call (.allocate .container "node"), .call (.allocate .container "node"),
    .call (.addEdge (.id 2) (.id 2)), .call (.addEdge (.id 2) (.id 1)),
    .call (.addEdge (.id 3) (.id 3)), .call (.release (.id 1)), .call (.release (.id 2)),
    .call (.release (.id 3)),
    .setFinalizer (.id 3) [⟨.call (.addEdge (.id 1) .self), false⟩,
      ⟨.call (.removeEdge .self .self), false⟩]]).2

/-- The oldest container keeps the third one when the finalizers have run, and both go when the
second one, which alone kept the oldest one, is swept: the third one is reported and is dead. -/
example :
    (match Pass.run (Hooks.ofPass 1) .youngest forlorn.forget with
      | .ok outcome s =>
          some (outcome.collected, outcome.resurrected, s.memory.heap.toList.map (·.id))
      | .error _ _ => none) = some (1, [3], []) := by
  decide +kernel

end Machine

end Reclaim
