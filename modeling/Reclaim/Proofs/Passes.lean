import Reclaim.Proofs.Collecting

/-!
# Passes in steps

A pass marks the collector as collecting, tells the callbacks, collects, keeps the books, tells the
callbacks again and clears the mark. If the hooks of the pass take steps only, so does the pass,
which succeeds and leaves the collector not collecting (`Pass.run_leads`). What it collects takes
the course of a collection (`Pass.collect_course`), in which no other pass starts and nothing grows
older, so that what survives is not too old for its new generation (`Pass.survivor`); `Pass.Course`
puts it between what is done before and after it (`Pass.body_course`). Between callbacks memory is
what the collection finds; if there are none, `Pass.Sweeps` says what becomes of it.
-/

set_option autoImplicit false

namespace Reclaim

open Machine

variable {sc : Scope} {b : Bool} {n : Nat} {L : Loose} {Q : ObjectId → Prop} {s s' : Machine}

/-- The hooks of a pass are run in steps, as long as no more than `n` finalizers are left. While the
pass collects, no other one comes to its end. -/
structure PassHooks.Sound (sc : Scope) (n : Nat) (hooks : PassHooks) : Prop where
  passes : sc.passes
  may : sc.may .collect
  finalization : hooks.finalization.Sound sc.calm true n
  callback : ∀ {L Q s script}, At sc true L Q s → s.memory.heap.unspent sc ≤ n →
    sc.hooks script → (hooks.callback script).Always s (Leads sc true L s L Q)

/-- The mark of a running pass is set and cleared in steps. -/
theorem Machine.At.mark {c : Collector} (A : At sc b L Q s) (hc : s.memory.collector = some c)
    (value : Bool) :
    Reaches sc value L s L Q (s.mapCollector ({ · with collecting := value })) := by
  refine ⟨.single (.collecting value), (Step.collecting value).sound A.sound, A.freeing, ?_⟩
  show Option.any _ (Option.map _ s.memory.collector) = value
  rw [hc]
  rfl

/-- A collector does not go away. -/
theorem Machine.Reaches.exists_collector {L' : Loose} {Q' : ObjectId → Prop} {c : Collector}
    (reaches : Reaches sc b L s L' Q' s') (hc : s.memory.collector = some c) :
    ∃ c', s'.memory.collector = some c' := by
  have := Steps.collector reaches.steps
  rw [hc] at this
  exact Option.isSome_iff_exists.mp this

namespace Machine

/-- Something has been reported, if that was asked for, and nothing else has changed. -/
def Murmurs (loud : Bool) (text : String) (s s' : Machine) : Prop :=
  s' = if loud then s.post (.info text) else s

theorem Murmurs.aside {loud : Bool} {text : String} (murmurs : s.Murmurs loud text s') :
    Aside s s' := by
  cases loud <;> cases murmurs <;> exact ⟨rfl, rfl, rfl, rfl⟩

end Machine

namespace Pass

variable {hooks : PassHooks} {c : Collector} {g : Generation}

theorem tell_leads (H : hooks.Sound sc n) (A : At sc true L Q s)
    (hn : s.memory.heap.unspent sc ≤ n) (phase : Phase) (info : PassInfo) {callback : Callback}
    (hook : sc.hooks callback.script) :
    ∃ s', tell hooks phase info callback s = .ok () s' ∧ Reaches sc true L s L Q s' ∧
      Discreet sc true (s.log (.calledBack callback.index phase info)) s' := by
  -- the callback is noted whether or not its steps cover this end of the pass
  have told : Reaches sc true L s L Q (s.log (.calledBack callback.index phase info)) :=
    A.reach (.note rfl) A.freeing rfl
  cases covers : callback.phase.covers phase with
  | false =>
    refine ⟨_, ?_, told, .refl _⟩
    simp only [tell, Act.bind_apply, Act.record_apply, covers, Bool.false_eq_true, if_false,
      Act.pure_apply]
  | true =>
    obtain ⟨outcome, s₁, run, leads⟩ := Act.attempt_of_always (H.callback told.there hn hook)
    cases outcome with
    | ok _ =>
      refine ⟨s₁, ?_, told.trans leads.toReaches, leads.conduct⟩
      simp only [tell, Act.bind_apply, Act.record_apply, covers, if_true, run, Act.pure_apply]
    | error fault =>
      have reported : tell hooks phase info callback s = .ok () (s₁.post
          (.warning s!"exception in collection callback: {fault.message}")) := by
        simp only [tell, Act.bind_apply, Act.record_apply, covers, if_true, run, Act.post_apply]
      exact ⟨_, reported, told.trans (leads.trans (leads.there.post _)).toReaches,
        (leads.trans (leads.there.post _)).conduct⟩

/-- Telling the callbacks takes steps; without callbacks nothing happens. -/
theorem tellAll_leads (H : hooks.Sound sc n) (A : At sc true L Q s)
    (hn : s.memory.heap.unspent sc ≤ n) (hc : s.memory.collector = some c) (phase : Phase)
    (info : PassInfo) :
    ∃ s', tellAll hooks phase info s = .ok () s' ∧ Reaches sc true L s L Q s' ∧
      Round sc phase info s.callbacks s s' ∧ (c.callbacks = [] → s' = s) := by
  -- the list of callbacks is read once, so a callback that changes it does not change this round
  have all (callbacks : List Callback) (allowed : ∀ cb ∈ callbacks, sc.hooks cb.script)
      {s : Machine} (A : At sc true L Q s) (hn : s.memory.heap.unspent sc ≤ n) :
      ∃ s', callbacks.forM (tell hooks phase info) s = .ok () s' ∧ Reaches sc true L s L Q s' ∧
        Round sc phase info callbacks s s' ∧ (callbacks = [] → s' = s) := by
    induction callbacks generalizing s with
    | nil => exact ⟨s, rfl, A.here.toReaches, .nil, fun _ => rfl⟩
    | cons cb callbacks ih =>
      obtain ⟨s₁, run₁, reaches₁, discreet⟩ :=
        tell_leads H A hn phase info (allowed cb List.mem_cons_self)
      obtain ⟨s', run, reaches, round, -⟩ :=
        ih (fun cb' mem => allowed cb' (List.mem_cons_of_mem cb mem)) reaches₁.there
          (Nat.le_trans reaches₁.unspent_le hn)
      refine ⟨s', ?_, reaches₁.trans reaches, .cons A.collecting discreet round,
        fun e => by cases e⟩
      simp only [List.forM, Act.bind_apply, run₁, run]
  obtain ⟨s', run, reaches, round, none⟩ := all c.callbacks
    (fun cb => A.sound.within.callbacks H.passes hc) A hn
  have callbacks := callbacks_of_collector hc
  refine ⟨s', ?_, reaches, callbacks ▸ round, none⟩
  simp only [tellAll, Act.bind_apply, Act.collector_of_some hc, run]

theorem reportStats_apply (text : Collector → String) (hc : s.memory.collector = some c) :
    ∃ s', reportStats text s = .ok () s' ∧ s.Murmurs (c.debug.has .stats) (text c) s' := by
  cases flag : c.debug.has .stats with
  | true =>
    refine ⟨s.post (.info (text c)), ?_, rfl⟩
    simp only [reportStats, Act.bind_apply, Act.collector_of_some hc, flag, if_true, Act.post_apply]
  | false =>
    refine ⟨s, ?_, rfl⟩
    simp only [reportStats, Act.bind_apply, Act.collector_of_some hc, flag, Bool.false_eq_true,
      if_false, Act.pure_apply]

theorem opening_leads (H : hooks.Sound sc n) (A : At sc true L Q s)
    (hn : s.memory.heap.unspent sc ≤ n) (hc : s.memory.collector = some c) :
    ∃ c' s₁ s', opening hooks g s = .ok c' s' ∧ Reaches sc true L s L Q s' ∧
      Round sc .start ⟨g, 0, 0⟩ s.callbacks s s₁ ∧ Discreet sc true s₁ s' ∧
      s'.memory.collector = some c' ∧
      (c.callbacks = [] → s.Murmurs (c.debug.has .stats) (openingText g c.tracker) s') := by
  obtain ⟨s₁, run₁, reaches₁, round, none₁⟩ := tellAll_leads H A hn hc .start ⟨g, 0, 0⟩
  obtain ⟨c₁, hc₁⟩ := reaches₁.exists_collector hc
  obtain ⟨s₂, run₂, murmurs⟩ := reportStats_apply (fun c => openingText g c.tracker) hc₁
  have aside₂ := murmurs.aside
  have hc₂ : s₂.memory.collector = some c₁ := by rw [aside₂.memory, hc₁]
  refine ⟨c₁, s₁, s₂, ?_, reaches₁.trans (reaches₁.there.aside aside₂).toReaches, round,
    aside₂.discreet, hc₂, fun none => ?_⟩
  · simp only [opening, Act.bind_apply, run₁, run₂, Act.collector_of_some hc₂]
  -- nobody has been told, so the collector is still the one that the pass begins with
  · rw [none₁ none] at hc₁ murmurs
    obtain rfl : c = c₁ := Option.some.inj (hc.symm.trans hc₁)
    exact murmurs

/-- The collection of a pass takes its course, in which no other pass comes to its end. -/
theorem collect_course (H : hooks.Sound sc n) (A : At sc true L Q s)
    (hn : s.memory.heap.unspent sc ≤ n) (hc : s.memory.collector = some c) (g : Generation) :
    Nonempty (Cycles.Course sc.calm true L Q hooks.finalization g.val (c.tracker.candidates g)
      (options c.debug) s) :=
  Cycles.collect_course H.finalization A.calm hn ((A.sound.files H.passes hc).nodup_candidates g)
    (fun x _ _ => sc.swept H.passes x) g.val (options c.debug)
    (A.sound.within.saving H.passes H.may hc)

/-- Survivors of a pass are live containers that are not older than what they are promoted to. -/
theorem survivor {x : ObjectId} (A : At sc true L Q s)
    (files : c.tracker.Files s.memory.heap)
    (k : Cycles.Course sc.calm true L Q hooks.finalization g.val (c.tracker.candidates g)
      (options c.debug) s) (hx : x ∈ k.report.survivors) :
    ∃ p, k.after.memory.heap.get? x = some p ∧ p.kind = .container ∧
      p.generation ≤ (g.next.val : Int) := by
  obtain ⟨member, p, hp⟩ := k.member_of_survivor hx
  refine ⟨p, hp, k.container_of_member A.calm member hp, ?_⟩
  -- it was a candidate, and its age has not changed since
  obtain ⟨candidate, o, ho, -⟩ := Cycles.mem_members.mp member
  obtain ⟨o', ho', age⟩ := Steps.age k.leads.steps id (A.sound.balanced.keyed ho).2.2 hp
  rw [ho, Option.some.injEq] at ho'
  subst ho'
  obtain ⟨i, le, filed⟩ := (c.tracker.mem_candidates g).mp candidate
  have filing := files i x filed
  rw [Heap.filing, ho, Option.map_some, Option.some.injEq, Prod.mk.injEq] at filing
  have next : ∀ g : Generation, g.val ≤ g.next.val := by decide
  have := next g
  have := Fin.le_def.mp le
  rw [age, filing.2]
  omega

theorem book_apply (hc : s.memory.collector = some c) (g : Generation) (options : PassOptions)
    (result : CycleReport) :
    book g options result s =
      .ok (c.tracker.passCompleted g result.survivors s.memory.heap.objects).2.2
        (s.withMemory (s.memory.book c g options.saveGarbage result)) := by
  simp only [book, Act.bind_apply, Act.collector_of_some hc, Act.heap_apply, Act.setHeap_apply,
    Act.modifyCollector_apply, Act.pure_apply]
  rfl

theorem book_leads {result : CycleReport} {options : PassOptions} (passes : sc.passes)
    (A : At sc b L Q s) (hc : s.memory.collector = some c) (g : Generation)
    (saves : options.saveGarbage = true →
      sc.saving ∧ ∀ x ∈ result.collected, x < s.memory.heap.nextId)
    (survivors : ∀ x ∈ result.survivors, ∃ o, s.memory.heap.get? x = some o ∧
      o.kind = .container ∧ o.generation ≤ (g.next.val : Int)) :
    book g options result s =
        .ok (c.tracker.passCompleted g result.survivors s.memory.heap.objects).2.2
          (s.withMemory (s.memory.book c g options.saveGarbage result)) ∧
      Reaches sc b L s L Q (s.withMemory (s.memory.book c g options.saveGarbage result)) := by
  refine ⟨book_apply hc g options result,
    A.reach (.book g options.saveGarbage result passes saves hc survivors) ?_ ?_⟩
  · intro x p hp f
    rw [withMemory_memory, Memory.get?_book, Option.map_eq_some_iff] at hp
    obtain ⟨o, ho, rfl⟩ := hp
    -- promoting changes ages only
    apply A.freeing x o ho
    split at f <;> exact f
  · obtain ⟨c', hc', -, -, -, collecting, -⟩ :=
      Memory.collector_book s.memory c g options.saveGarbage result hc
    show Option.any _ (Memory.book _ _ _ _ _).collector = Option.any _ _
    rw [hc', hc]
    exact collecting

/-- The warnings about resurrected objects. -/
theorem warnAll_apply (notice : ObjectId → Notice) (xs : List ObjectId) (s : Machine) :
    ∃ s', (xs.forM fun id => Act.post (notice id)) s = .ok () s' ∧ Aside s s' ∧
      (xs = [] → s' = s) := by
  induction xs generalizing s with
  | nil => exact ⟨s, rfl, .refl s, fun _ => rfl⟩
  | cons x xs ih =>
    obtain ⟨s', run, aside, -⟩ := ih (s.post (notice x))
    exact ⟨s', run, ⟨aside.memory, aside.journal, aside.starved, aside.registered⟩, nofun⟩

/-- The report of a collection is booked, and the callbacks are told about it; without callbacks
nothing else happens. -/
theorem closing_leads {result : CycleReport} {options : PassOptions} (H : hooks.Sound sc n)
    (A : At sc true L Q s) (hn : s.memory.heap.unspent sc ≤ n) (hc : s.memory.collector = some c)
    (g : Generation)
    (saves : options.saveGarbage = true →
      sc.saving ∧ ∀ x ∈ result.collected, x < s.memory.heap.nextId)
    (survivors : ∀ x ∈ result.survivors, ∃ o, s.memory.heap.get? x = some o ∧
      o.kind = .container ∧ o.generation ≤ (g.next.val : Int)) :
    ∃ outcome s₁ s', closing hooks g options result s = .ok outcome s' ∧
      Reaches sc true L s L Q s' ∧
      Discreet sc true (s.withMemory (s.memory.book c g options.saveGarbage result)) s₁ ∧
      Round sc .stop ⟨g, result.collected.length, result.resurrected.length⟩ s₁.callbacks s₁ s' ∧
      outcome.collected = result.collected.length ∧
      outcome.resurrected = result.resurrected ∧
      (c.callbacks = [] → s'.memory = s.memory.book c g options.saveGarbage result ∧
        (result.resurrected = [] →
          (s.withMemory (s.memory.book c g options.saveGarbage result)).Murmurs
            (c.debug.has .stats) (closingText result.collected.length 0 result.examined) s')) := by
  obtain ⟨run₁, booked⟩ := book_leads H.passes A hc g saves survivors
  obtain ⟨s₂, run₂, aside₂, unwarned⟩ := warnAll_apply (fun id => .warning
    s!"object #{id} was resurrected by a finalizer and is left for a later pass") result.resurrected
    (s.withMemory (s.memory.book c g options.saveGarbage result))
  have warned := booked.trans (booked.there.aside aside₂).toReaches
  obtain ⟨c₂, hc₂⟩ := warned.exists_collector hc
  obtain ⟨s₃, run₃, murmurs⟩ := reportStats_apply (fun _ =>
    closingText result.collected.length result.resurrected.length result.examined) hc₂
  have aside₃ := murmurs.aside
  have reported := warned.trans (warned.there.aside aside₃).toReaches
  have hc₃ : s₃.memory.collector = some c₂ := by rw [aside₃.memory, hc₂]
  obtain ⟨s', run₄, told, round, none⟩ := tellAll_leads H reported.there
    (Nat.le_trans reported.unspent_le hn) hc₃ .stop
    ⟨g, result.collected.length, result.resurrected.length⟩
  refine ⟨{ collected := result.collected.length, resurrected := result.resurrected,
            due := (c.tracker.passCompleted g result.survivors s.memory.heap.objects).2.2 }, s₃, s',
    ?_, reported.trans told, aside₂.discreet.trans aside₃.discreet, round, rfl, rfl,
    fun callbacks => ?_⟩
  · simp only [closing, aftermath, Act.bind_apply, run₁, run₂, run₃, run₄, Act.pure_apply]
  -- booking changes no callbacks, so there are none to be told
  · obtain ⟨c', hc', -, same, debug, -⟩ :=
      Memory.collector_book s.memory c g options.saveGarbage result hc
    rw [aside₂.memory, withMemory_memory, hc', Option.some.injEq] at hc₂
    subst hc₂
    have ended := none (same.trans callbacks)
    refine ⟨?_, fun unresurrected => ?_⟩
    · rw [ended, aside₃.memory, aside₂.memory, withMemory_memory]
    · rwa [unwarned unresurrected, debug, ← ended, unresurrected, List.length_nil] at murmurs

/-- The course of a pass over `g` that begins at `s`, kept as data. -/
structure Course (sc : Scope) (L : Loose) (Q : ObjectId → Prop) (hooks : PassHooks) (g : Generation)
    (s : Machine) where
  /-- The collector when the callbacks have been told that the pass starts. -/
  collector : Collector
  opened : Machine
  opening_eq : opening hooks g s = .ok collector opened
  opens : Reaches sc true L s L Q opened
  collector_eq : opened.memory.collector = some collector
  collection : Cycles.Course sc.calm true L Q hooks.finalization g.val
    (collector.tracker.candidates g) (options collector.debug) opened
  outcome : PassOutcome
  ended : Machine
  closing_eq : closing hooks g (options collector.debug) collection.report collection.after =
    .ok outcome ended
  closes : Reaches sc true L collection.after L Q ended
  told : Told sc g s ended
  collected : outcome.collected = collection.report.collected.length
  resurrected : outcome.resurrected = collection.report.resurrected
  /-- Without callbacks nothing is done before the collection but to report statistics. -/
  opens_quietly : ∀ c, s.memory.collector = some c → c.callbacks = [] →
    s.Murmurs (c.debug.has .stats) (openingText g c.tracker) opened
  /-- Without callbacks nothing is done after the collection but to enter it into the books. -/
  closes_quietly : ∀ c, collection.after.memory.collector = some c → c.callbacks = [] →
    ended.memory =
      collection.after.memory.book c g (options collector.debug).saveGarbage collection.report
  /-- If nothing is resurrected either, nothing is said after the collection but statistics. -/
  closes_silently : ∀ c, collection.after.memory.collector = some c → c.callbacks = [] →
    collection.report.resurrected = [] →
      (collection.after.withMemory (collection.after.memory.book c g
        (options collector.debug).saveGarbage collection.report)).Murmurs (c.debug.has .stats)
        (closingText collection.report.collected.length 0 collection.report.examined) ended

/-- A pass succeeds and takes its course. -/
theorem body_course (H : hooks.Sound sc n) (A : At sc true L Q s)
    (hn : s.memory.heap.unspent sc ≤ n) (hc : s.memory.collector = some c) (g : Generation) :
    Nonempty (Course sc L Q hooks g s) := by
  obtain ⟨c₁, s₀, s₁, run₁, opened, start, discreet, hc₁, none⟩ := opening_leads (g := g) H A hn hc
  obtain ⟨k⟩ := collect_course H opened.there (Nat.le_trans opened.unspent_le hn) hc₁ g
  have collected := opened.trans (k.leads.toReaches.lift opened.there)
  obtain ⟨c₂, hc₂⟩ := collected.exists_collector hc
  have saves (on : (options c₁.debug).saveGarbage = true) :
      sc.saving ∧ ∀ x ∈ k.report.collected, x < k.after.memory.heap.nextId :=
    ⟨opened.there.sound.within.saving H.passes H.may hc₁ on, fun x hx =>
      k.old opened.there.calm (k.mem_of_unreachable (k.unreachable_of_collected hx))⟩
  obtain ⟨outcome, s₂, s', run₂, closed, discreet₂, stop, count, resurrected, booked⟩ :=
    closing_leads H collected.there (Nat.le_trans collected.unspent_le hn) hc₂ g saves
      fun x => survivor opened.there (opened.there.sound.files H.passes hc₁) k
  have told : Told sc g s s' :=
    .intro start (discreet.trans (Discreet.lift k.leads.conduct)) hc₂ discreet₂ stop
  refine ⟨⟨c₁, s₁, run₁, opened, hc₁, k, outcome, s', run₂, closed, told, count, resurrected,
    fun c' hc' callbacks => ?_, fun c' hc' callbacks => ?_, fun c' hc' callbacks => ?_⟩⟩
  · obtain rfl : c = c' := Option.some.inj (hc.symm.trans hc')
    exact none callbacks
  all_goals obtain rfl : c₂ = c' := Option.some.inj (hc₂.symm.trans hc')
  · exact (booked callbacks).1
  · exact (booked callbacks).2

namespace Course

variable (k : Course sc L Q hooks g s)
include k

theorem body_eq : body hooks g s = .ok k.outcome k.ended := by
  simp only [body, Act.bind_apply, k.opening_eq, k.collection.collect_eq, k.closing_eq]

theorem collects : Reaches sc true L s L Q k.collection.after :=
  k.opens.trans (k.collection.leads.toReaches.lift k.opens.there)

theorem leads : Reaches sc true L s L Q k.ended := k.collects.trans k.closes

/-- What the pass does when the finalizers have run. -/
theorem concludes : Reaches sc true L k.collection.finalized L Q k.ended :=
  have finalizes := k.collection.finalizes.toReaches.lift k.opens.there
  (k.collection.sweeps.toReaches.lift finalizes.there).trans k.closes

theorem nodup_candidates (H : hooks.Sound sc n) : (k.collector.tracker.candidates g).Nodup :=
  (k.opens.there.sound.files H.passes k.collector_eq).nodup_candidates g

/-- Unless garbage is saved, what is collected is dead at the end. -/
theorem dead_of_collected {x : ObjectId} (discards : k.collector.debug.has .saveAll = false)
    (hx : x ∈ k.collection.report.collected) : k.ended.memory.heap.get? x = none := by
  have A := k.opens.there.calm
  have member := k.collection.mem_of_unreachable (k.collection.unreachable_of_collected hx)
  exact (Steps.later k.closes.steps).dead (k.collection.old A member)
    (k.collection.dead_of_collected A discards hx)

end Course

/-- What a pass does to a heap if there are no callbacks: what it counts as collected is gone, and
without finalizers that is what is not held from outside of the generations looked at. -/
def Sweeps (h : Heap) (c : Collector) (g : Generation) (outcome : PassOutcome) (h' : Heap) : Prop :=
  ∃ collected : List ObjectId, outcome.collected = collected.length ∧
    (c.debug.has .saveAll = false → ∀ x ∈ collected, h'.get? x = none) ∧
    ((∀ x o, h.get? x = some o → o.pendingFinalizer? = none) →
      outcome.resurrected = [] ∧ collected.Nodup ∧
      ∀ x, x ∈ collected ↔ x ∈ Cycles.members h (c.tracker.candidates g) ∧
        ¬ Analysis.Held h (Cycles.members h (c.tracker.candidates g)) x)

theorem body_leads (H : hooks.Sound sc n) (A : At sc true L Q s)
    (hn : s.memory.heap.unspent sc ≤ n) (hc : s.memory.collector = some c) :
    ∃ outcome s', body hooks g s = .ok outcome s' ∧ Reaches sc true L s L Q s' ∧ Told sc g s s' ∧
      (c.callbacks = [] → Sweeps s.memory.heap c g outcome s'.memory.heap) := by
  obtain ⟨k⟩ := body_course H A hn hc g
  refine ⟨k.outcome, k.ended, k.body_eq, k.leads, k.told, fun callbacks => ?_⟩
  have same := (k.opens_quietly c hc callbacks).aside.memory
  obtain rfl : c = k.collector := Option.some.inj (hc.symm.trans (same ▸ k.collector_eq))
  refine ⟨_, k.collected, fun saves x => k.dead_of_collected saves, fun unpending => ?_⟩
  rw [← same] at unpending ⊢
  obtain ⟨-, -, garbage, unresurrected⟩ := k.collection.quiet k.opens.there.calm
    (k.nodup_candidates H) fun x _ => unpending x
  have nodup : (Cycles.members k.opened.memory.heap (k.collector.tracker.candidates g)).Nodup :=
    (k.nodup_candidates H).filter _
  rw [garbage]
  exact ⟨k.resurrected.trans unresurrected, k.collection.parted.sub_unreachable.nodup nodup,
    k.collection.parted.mem_unreachable⟩

theorem run_of_body {outcome : PassOutcome}
    (done : body hooks g (s.mapCollector ({ · with collecting := true })) = .ok outcome s') :
    run hooks g s = .ok outcome (s'.mapCollector ({ · with collecting := false })) := by
  simp only [run, Act.bind_apply, Act.modifyCollector_apply, Act.attempt_apply, done,
    Act.ofExcept_ok]

/-- A pass succeeds, and no pass is running afterwards. -/
theorem run_leads (H : hooks.Sound sc n) (A : At sc false L Q s)
    (hn : s.memory.heap.unspent sc ≤ n) (hc : s.memory.collector = some c) :
    ∃ outcome s', run hooks g s = .ok outcome s' ∧ Leads sc false L s L Q s' ∧
      (c.callbacks = [] → Sweeps s.memory.heap c g outcome s'.memory.heap) := by
  -- the mark keeps further passes out until the end of this one
  have began := A.mark hc true
  obtain ⟨outcome, s₁, run₁, reaches₁, told, sweeps⟩ := body_leads (g := g) H began.there
    (Nat.le_trans began.unspent_le hn) (congrArg (Option.map _) hc)
  obtain ⟨c₁, hc₁⟩ := reaches₁.exists_collector (congrArg (Option.map _) hc)
  have passes : Machine.Passes sc s (s₁.mapCollector ({ · with collecting := false })) :=
    ⟨g, s₁, told, rfl⟩
  exact ⟨outcome, s₁.mapCollector ({ · with collecting := false }), run_of_body run₁,
    ⟨(began.trans reaches₁).trans (reaches₁.there.mark hc₁ false), passes.conduct⟩, sweeps⟩

/-- Passes over older generations follow as they become due. -/
theorem runDue_leads (H : hooks.Sound sc n) {rounds : Nat} (A : At sc false L Q s)
    (hn : s.memory.heap.unspent sc ≤ n) (hc : s.memory.collector = some c) :
    ∃ s', runDue (run hooks) rounds g s = .ok () s' ∧ Leads sc false L s L Q s' := by
  -- by induction on the rounds, one for each generation that may become due
  induction rounds generalizing s g c with
  | zero => exact ⟨s, rfl, A.here⟩
  | succ rounds ih =>
    obtain ⟨outcome, s₁, run₁, leads₁, -⟩ := run_leads (g := g) H A hn hc
    cases due : outcome.due with
    | none =>
      refine ⟨s₁, ?_, leads₁⟩
      simp only [runDue, Act.bind_apply, run₁, due, Act.pure_apply]
    | some older =>
      obtain ⟨c₁, hc₁⟩ := leads₁.exists_collector hc
      obtain ⟨s', run, leads⟩ := ih (g := older) leads₁.there (Nat.le_trans leads₁.unspent_le hn)
        hc₁
      refine ⟨s', ?_, leads₁.trans leads⟩
      simp only [runDue, Act.bind_apply, run₁, due, run]

end Pass

end Reclaim
