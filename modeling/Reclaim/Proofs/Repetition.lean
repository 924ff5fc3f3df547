import Reclaim.Proofs.Sessions
import Reclaim.Proofs.Transparency

/-!
# Collecting again

The finalizers of a shell rewire the heap while a full collection is at work: they let holders refer
to what was found unreachable, between the two analyses and again when atoms die at the end. Nothing
is allocated meanwhile, so every holder that is alive by then was a candidate of the pass. The host
reaches it, unless it is garbage itself (`Pass.LinkedCourse.Full.reachable_or_garbage`); hence the
host reaches whatever a full collection leaves (`Pass.LinkedCourse.Full.reached`). Where it reaches
everything, a pass finds nothing unreachable and changes no more than ages
(`Pass.Course.uneventful`), so a second collection collects nothing
(`Shell.Attained.collection_repeats`).
-/

set_option autoImplicit false

namespace Reclaim

open Machine

/-! ## What a full collection leaves -/

namespace Heap

variable {h h' h'' : Heap} {members : List ObjectId} {x : ObjectId}

/-- The host reaches every live object. -/
def Reached (h : Heap) : Prop := ∀ x o, h.get? x = some o → h.Reachable x

/-- If the host reaches all containers, it reaches everything. -/
theorem Consistent.reached (C : h.Consistent)
    (containers : ∀ x o, h.get? x = some o → o.kind = .container → h.Reachable x) : h.Reached := by
  intro x o hx
  rcases C.rooted_or_held hx with rooted | ⟨r, hr⟩
  · exact .root rooted
  · obtain ⟨p, hp, kind⟩ := C.container_of_mem_refs hr
    exact .step (containers r p hp kind) hr

/-- If the host reaches the containers outside of some members, it reaches the members that are
supported. -/
theorem Supported.reachable (supported : h.Supported members x) (C : h.Consistent)
    (outside : ∀ x o, h.get? x = some o → o.kind = .container → x ∉ members → h.Reachable x) :
    h.Reachable x := by
  induction supported with
  | root _ rooted => exact .root rooted
  | outside _ apart hx =>
    obtain ⟨p, hp, kind⟩ := C.container_of_mem_refs hx
    exact .step (outside _ p hp kind apart) hx
  | step _ hy _ ih => exact .step ih hy

theorem Same.refl (h : Heap) : h.Same h := ⟨fun _ => rfl, rfl, rfl⟩

theorem Same.trans (one : h.Same h') (two : h'.Same h'') : h.Same h'' :=
  ⟨fun x => (one.objects x).trans (two.objects x), one.nextId.trans two.nextId,
    one.freed.trans two.freed⟩

theorem Unmarked.same (unmarked : h.Unmarked h') : h.Same h' :=
  ⟨fun x => (unmarked.map_view (fun _ => rfl) x).symm, unmarked.nextId.symm, unmarked.freed.symm⟩

end Heap

namespace Pass.LinkedCourse

variable {names : Finset ObjectId} {n : Nat} {c : Collector} {g : Generation} {s : Machine}
  {x : ObjectId} {o : Object} (k : LinkedCourse names n c g s)

/-- The pass looks at all live containers. -/
def Full : Prop :=
  ∀ x, x ∈ Cycles.members k.opened.memory.heap (k.collector.tracker.candidates g) ↔
    ∃ o, k.opened.memory.heap.get? x = some o ∧ o.kind = .container

variable {k}

/-- What the host reaches when the finalizers have run it reaches at the end. -/
theorem reachable_of_finalized (reach : k.collection.finalized.memory.heap.Reachable x) :
    k.ended.memory.heap.Reachable x :=
  Steps.reachable (Scope.linking_links _ _ _ _) k.concludes.steps reach

/-- If the pass looks at all live containers, it finds held what the host reaches. -/
theorem Full.held_iff (full : k.Full) : Analysis.Held k.opened.memory.heap
    (Cycles.members k.opened.memory.heap (k.collector.tracker.candidates g)) x ↔
      x ∈ Cycles.members k.opened.memory.heap (k.collector.tracker.candidates g) ∧
        k.opened.memory.heap.Reachable x :=
  Analysis.held_iff_reachable k.opens.there.consistent (k.nodup_candidates.filter _) full

/-- A container that is live when the finalizers have run is unreachable, or the host reaches it. -/
theorem Full.reachable_or_unreachable (full : k.Full)
    (ho : k.collection.finalized.memory.heap.get? x = some o) (kind : o.kind = .container) :
    k.collection.finalized.memory.heap.Reachable x ∨
      x ∈ k.collection.unreachable.filter (k.collection.finalized.memory.heap.contains ·) := by
  have links := Scope.linking_links names (c.debug.has .saveAll = true) True True
  -- nothing is allocated, so it was there when the collection began
  obtain ⟨p, hp, same⟩ :=
    k.collection.finalizes.toReaches.exists_old (links.calm.not_may (by simp)) ho
  have member := (full x).mpr ⟨p, hp, same.symm.trans kind⟩
  by_cases held : Analysis.Held k.opened.memory.heap
    (Cycles.members k.opened.memory.heap (k.collector.tracker.candidates g)) x
  · left
    have reach := (full.held_iff.mp held).2
    rw [k.opened_same] at reach
    exact k.swells.reachable reach
  · right
    exact List.mem_filter.mpr ⟨(k.collection.parted.mem_unreachable x).mpr ⟨member, held⟩,
      Cycles.contains_iff.mpr ⟨o, ho⟩⟩

/-- When the finalizers have run, a live container is garbage, or the host reaches it. -/
theorem Full.reachable_or_garbage (full : k.Full)
    (ho : k.collection.finalized.memory.heap.get? x = some o) (kind : o.kind = .container) :
    k.collection.finalized.memory.heap.Reachable x ∨ x ∈ k.collection.garbage := by
  rcases full.reachable_or_unreachable ho kind with reach | left
  · exact .inl reach
  by_cases resurrected : x ∈ k.collection.report.resurrected
  · -- whoever supports it from outside is reached itself
    have supported := (k.collection.resurrected_iff k.opens.there.calm k.nodup_candidates).mp
      resurrected
    refine .inl (supported.reachable k.collection.finalizes.there.consistent
      fun r p hp kind apart => ?_)
    exact (full.reachable_or_unreachable hp kind).resolve_right apart
  · right
    refine (k.collection.again.mem_unreachable x).mpr ⟨left, fun held => resurrected ?_⟩
    exact (k.collection.again.mem_reachable x).mpr held

/-- What a full collection leaves is reached by the host. -/
theorem Full.reached (full : k.Full) : k.ended.memory.heap.Reached := by
  have links := Scope.linking_links names (c.debug.has .saveAll = true) True True
  refine k.closes.there.consistent.reached fun x p hp kind => ?_
  obtain ⟨o, ho, same⟩ := k.concludes.exists_old (links.not_may (by simp)) hp
  rcases full.reachable_or_garbage ho (same.symm.trans kind) with reach | garbage
  · exact reachable_of_finalized reach
  cases saves : k.collector.debug.has .saveAll with
  | false =>
    -- garbage that is not kept has been freed
    have collected : x ∈ k.collection.report.collected := by
      rw [k.collection.collected]
      exact List.mem_append_right _ garbage
    cases (k.dead_of_collected saves collected).symm.trans hp
  | true =>
    -- garbage that is kept has got a root reference
    have retains := k.collection.saved saves x
    rw [ho, Option.map_some, if_pos garbage, Option.map_eq_some_iff] at retains
    obtain ⟨q, hq, e⟩ := retains
    have root : q.rootCount = o.rootCount + 1 := congrArg (·.rootCount) e
    have rooted : k.collection.after.memory.heap.Rooted x := ⟨q, hq, root ▸ Nat.succ_pos _⟩
    exact Steps.reachable links k.closes.steps (.root rooted)

/-- If the host reaches everything when the collection begins, nothing is unreachable. -/
theorem Full.unreachable_eq_nil (full : k.Full) (reached : k.opened.memory.heap.Reached) :
    k.collection.unreachable = [] := by
  refine List.eq_nil_iff_forall_not_mem.mpr fun x hx => ?_
  obtain ⟨member, unheld⟩ := (k.collection.parted.mem_unreachable x).mp hx
  obtain ⟨o, ho, -⟩ := (full x).mp member
  exact unheld (full.held_iff.mpr ⟨member, reached x o ho⟩)

end Pass.LinkedCourse

/-! ## A pass with nothing to do -/

namespace Machine

variable {notes notes' : String} {own : Holdings} {s s' s'' : Machine} {c : Collector}

/-- Nothing has happened to the objects but that they may have grown older. None has been freed or
listed, no hook has been entered, and all that has been said are some notes. -/
structure Uneventful (notes : String) (s s' : Machine) : Prop where
  same : s.memory.heap.Same s'.memory.heap
  saved : s'.memory.saved = s.memory.saved
  journal : s'.journal = s.journal
  out : s'.console.out = s.console.out ++ notes
  err : s'.console.err = s.console.err

theorem Uneventful.trans (one : s.Uneventful notes s') (two : s'.Uneventful notes' s'') :
    s.Uneventful (notes ++ notes') s'' where
  same := one.same.trans two.same
  saved := two.saved.trans one.saved
  journal := two.journal.trans one.journal
  out := by rw [two.out, one.out, String.append_assoc]
  err := two.err.trans one.err

theorem Murmurs.uneventful {loud : Bool} {text : String} (murmurs : s.Murmurs loud text s') :
    s.Uneventful (if loud then s!"Info: {text}\n" else "") s' := by
  cases loud <;> cases murmurs
  · exact ⟨.refl _, rfl, rfl, String.append_empty.symm, rfl⟩
  · exact ⟨.refl _, rfl, rfl, rfl, rfl⟩

/-- Where only memory has changed, nothing has been said. -/
theorem uneventful_of_memory {m : Memory} (same : s.memory.heap.Same m.heap)
    (saved : m.saved = s.memory.saved) : s.Uneventful "" (s.withMemory m) :=
  ⟨same, saved, rfl, String.append_empty.symm, rfl⟩

theorem uneventful_collecting (s : Machine) (value : Bool) :
    s.Uneventful "" (s.mapCollector ({ · with collecting := value })) :=
  uneventful_of_memory (.refl _) (Memory.saved_map (by intro; rfl) _ _)

end Machine

/-- What a pass says that finds nothing unreachable: its statistics, if these are asked for. -/
def Collector.idleNotes (c : Collector) (g : Generation) (examined : Nat) : String :=
  if c.debug.has .stats then
    s!"Info: {Pass.openingText g c.tracker}\n" ++ s!"Info: {Pass.closingText 0 0 examined}\n"
  else ""

/-- Nothing changes when a collection finds nothing unreachable. -/
theorem Cycles.Course.of_unreachable_eq_nil {sc : Scope} {b : Bool} {L : Loose}
    {Q : ObjectId → Prop} {fin : Finalization} {g : Int} {xs : List ObjectId}
    {options : PassOptions} {s : Machine} (k : Course sc b L Q fin g xs options s)
    (none : k.unreachable = []) :
    k.after = s.withHeap k.marked ∧ k.report.collected = [] ∧ k.report.resurrected = [] := by
  have divided := k.divide_eq
  have collected := k.collect_eq
  rw [none] at divided
  simp only [collect, collectWith, Act.bind_apply, Act.heap_apply, divided, List.isEmpty_nil,
    if_true, Act.pure_apply] at collected
  injection collected with report after
  rw [← report]
  exact ⟨after.symm, rfl, rfl⟩

/-- A pass that finds nothing unreachable, and has nobody to tell, is uneventful. -/
theorem Pass.Course.uneventful {sc : Scope} {L : Loose} {Q : ObjectId → Prop} {hooks : PassHooks}
    {g : Generation} {s : Machine} {c : Collector} (k : Course sc L Q hooks g s)
    (hc : s.memory.collector = some c) (untold : c.callbacks = [])
    (none : k.collection.unreachable = []) :
    k.outcome.collected = 0 ∧ k.outcome.resurrected = [] ∧
      s.Uneventful (c.idleNotes g k.collection.report.examined) k.ended := by
  obtain ⟨after, collected, resurrected⟩ := k.collection.of_unreachable_eq_nil none
  have opens := k.opens_quietly c hc untold
  have hc₁ : k.opened.memory.collector = some c := by rw [opens.aside.memory, hc]
  have hc₂ : k.collection.after.memory.collector = some c := after ▸ hc₁
  have marked : k.opened.Uneventful "" k.collection.after :=
    after ▸ uneventful_of_memory k.collection.unmarked.same rfl
  have booked : k.collection.after.Uneventful ""
      (k.collection.after.withMemory (k.collection.after.memory.book c g
        (options k.collector.debug).saveGarbage k.collection.report)) := by
    refine uneventful_of_memory ⟨fun x => ?_, rfl, rfl⟩ ?_
    · exact (Memory.map_get?_book (fun _ _ => rfl) _ c g _ k.collection.report x).symm
    · rw [Memory.saved_book hc₂, collected, ite_self, List.append_nil]
  have closes := (k.closes_silently c hc₂ untold resurrected).uneventful
  rw [collected, List.length_nil] at closes
  have course := opens.uneventful.trans (marked.trans (booked.trans closes))
  -- the reports at both ends are all that is said
  have said : c.idleNotes g k.collection.report.examined =
      (if c.debug.has .stats then s!"Info: {openingText g c.tracker}\n" else "") ++ ("" ++ ("" ++
        if c.debug.has .stats then
          s!"Info: {closingText 0 0 k.collection.report.examined}\n" else "")) := by
    simp only [Collector.idleNotes, String.empty_append]
    cases c.debug.has .stats <;> simp only [Bool.false_eq_true, if_false, if_true,
      String.empty_append]
  exact ⟨by rw [k.collected, collected, List.length_nil], k.resurrected.trans resurrected,
    said ▸ course⟩

namespace Machine.Rests

variable {own : Holdings} {s : Machine} {c : Collector}

/-- The course of a full collection of a shell. -/
abbrev FullCourse (s : Machine) (c : Collector) :=
  Pass.LinkedCourse (s.linkScope (.ask .roots)).names (s.memory.finalizerBudget + 0)
    { c with collecting := true } .oldest (s.mapCollector ({ · with collecting := true }))

/-- A full collection of a shell looks at all live containers. It succeeds, or it reports what was
resurrected. -/
theorem collect_full (R : Rests own s) (hc : s.memory.collector = some c) :
    ∃ (k : FullCourse s c) (c' : Collector), k.Full ∧
      Rests own (k.ended.mapCollector ({ · with collecting := false })) ∧
      runWithin 0 (Host.collect · 2) s =
        if c'.policy = .raise && !k.outcome.resurrected.isEmpty then
          .error (.resurrectionDetected k.outcome.resurrected k.outcome.collected)
            (k.ended.mapCollector ({ · with collecting := false }))
        else
          .ok k.outcome.collected (k.ended.mapCollector ({ · with collecting := false })) := by
  have H := R.holds (.ask .roots)
  obtain ⟨k, run, H'⟩ := H.run (linkScope_linked s _) hc .oldest
  obtain ⟨c', hc'⟩ := H.exists_collector H' hc
  have members (x : ObjectId) : x ∈ Cycles.members s.memory.heap (c.tracker.candidates .oldest) ↔
      ∃ o, s.memory.heap.get? x = some o ∧ o.kind = .container :=
    R.settled.mem_members R.filesAll hc
  refine ⟨k, c', fun x => ?_, R.of_holds H', ?_⟩
  · rw [k.opened_same, k.collector_same]
    exact members x
  · exact Host.collect_apply hc (H.there.collecting_eq hc) rfl (Hooks.outside_pass _) run hc'

/-- A full collection leaves what the host reaches. -/
theorem collect_reached (R : Rests own s) :
    ∃ (outcome : PassOutcome) (s' : Machine), Rests own s' ∧ s'.memory.heap.Reached ∧
      (runWithin 0 (Host.collect · 2) s = .ok outcome.collected s' ∨
        runWithin 0 (Host.collect · 2) s =
          .error (.resurrectionDetected outcome.resurrected outcome.collected) s') := by
  obtain ⟨c, hc⟩ := R.present
  obtain ⟨k, c', full, R', collected⟩ := R.collect_full hc
  refine ⟨k.outcome, _, R', full.reached, ?_⟩
  split at collected
  · exact .inr collected
  · exact .inl collected

/-- If the host reaches everything, a full collection collects nothing. -/
theorem collect_uneventful (R : Rests own s) (hc : s.memory.collector = some c)
    (reached : s.memory.heap.Reached) :
    ∃ examined s', runWithin 0 (Host.collect · 2) s = .ok 0 s' ∧
      s.Uneventful (c.idleNotes .oldest examined) s' := by
  obtain ⟨k, c', full, -, run⟩ := R.collect_full hc
  have none : k.collection.unreachable = [] := full.unreachable_eq_nil (k.opened_same ▸ reached)
  have untold : c.callbacks = [] := (callbacks_of_collector hc).symm.trans R.untold
  have hc₁ : (s.mapCollector ({ · with collecting := true })).memory.collector =
      some { c with collecting := true } := congrArg (Option.map _) hc
  obtain ⟨collected, resurrected, idle⟩ := k.toCourse.uneventful hc₁ untold none
  rw [resurrected, collected, List.isEmpty_nil, Bool.not_true, Bool.and_false] at run
  have course := (uneventful_collecting s true).trans
    (idle.trans (uneventful_collecting k.ended false))
  rw [String.append_empty, String.empty_append] at course
  exact ⟨_, _, run, course⟩

end Machine.Rests

/-! ## The shell -/

namespace Shell

variable {sh : Shell}

/-- A line has collected nothing: the heap is the same, no finalizer has run, and nothing has been
freed or listed. That is what it prints, after the line itself if lines are repeated and after the
statistics if these are asked for; nothing is said about errors. -/
structure CollectsNothing (sh : Shell) (text : String) (sh' : Shell) : Prop where
  same : sh.machine.memory.heap.Same sh'.machine.memory.heap
  saved : sh'.machine.memory.saved = sh.machine.memory.saved
  journal : sh'.machine.journal = []
  bindings : sh'.bindings = sh.bindings
  names : sh'.names = sh.names
  lastCollected : sh'.lastCollected = 0
  out : ∃ c examined, sh.machine.memory.collector = some c ∧
    sh'.machine.console.out = sh.machine.console.out ++ (if sh.echo then s!"> {text}\n" else "") ++
      c.idleNotes .oldest examined ++ "collected 0\n"
  err : sh'.machine.console.err = sh.machine.console.err

theorem out_opened (sh : Shell) (text : String) : (sh.opened text).machine.console.out =
    sh.machine.console.out ++ if sh.echo then s!"> {text}\n" else "" := by
  unfold opened
  cases sh.echo
  · exact String.append_empty.symm
  · rfl

theorem err_opened (sh : Shell) (text : String) :
    (sh.opened text).machine.console.err = sh.machine.console.err := by
  unfold opened
  cases sh.echo <;> rfl

/-- Where the host reaches everything, a full collection collects nothing. -/
theorem Sound.collects_nothing {text : String} (S : sh.Sound)
    (reached : sh.machine.memory.heap.Reached) (words : Text.words text = ["collect"])
    (line : Int) : ∃ sh', execute text line sh = .ok () sh' ∧ sh.CollectsNothing text sh' := by
  obtain ⟨c, hc⟩ := S.rests.present
  have opened : (sh.opened text).machine.Rests sh.holdings := S.rests.congr rfl
  obtain ⟨examined, m, done, idle⟩ := opened.collect_uneventful hc reached
  refine ⟨_, (execute_of_command words rfl).trans (run_collect_of_ok done), ?_⟩
  refine ⟨idle.same, idle.saved, idle.journal, rfl, rfl, rfl, ⟨c, examined, hc, ?_⟩, ?_⟩
  · rw [← out_opened, ← idle.out]
    rfl
  · rw [← err_opened sh text, ← idle.err]
    rfl

/-- Full collections are idempotent. Whatever finalizers are pending in a session, a full collection
succeeds or reports what was resurrected, and leaves only objects to which references lead from an
object with a root reference. Whatever is done to the console then, a further full collection
succeeds and collects nothing. -/
theorem Attained.collection_repeats (run : Attained sh) {text : String}
    (words : Text.words text = ["collect"]) (line : Int) :
    ∃ sh₁, (execute text line sh = .ok () sh₁ ∨ ∃ ids collected,
        execute text line sh = .error (.resurrectionDetected ids collected) sh₁) ∧
      (∀ x o, sh₁.machine.memory.heap.get? x = some o → sh₁.machine.memory.heap.Reachable x) ∧
      ∀ (console : Console) {text' : String} (line' : Int), Text.words text' = ["collect"] →
        ∃ sh₂, execute text' line' { sh₁ with machine.console := console } = .ok () sh₂ ∧
          CollectsNothing { sh₁ with machine.console := console } text' sh₂ := by
  have opened : (sh.opened text).machine.Rests sh.holdings := run.sound.rests.congr rfl
  have executed : execute text line sh = Shell.run line (.collect none) (sh.opened text) :=
    execute_of_command words rfl
  obtain ⟨outcome, m, -, reached, done | reported⟩ := opened.collect_reached
  · have succeeds := executed.trans (run_collect_of_ok done)
    refine ⟨_, .inl succeeds, reached, fun console _ line' words' => ?_⟩
    exact ((run.succeed succeeds).console console).sound.collects_nothing reached words' line'
  · have fails := executed.trans (run_collect_of_error reported)
    refine ⟨_, .inr ⟨_, _, fails⟩, reached, fun console _ line' words' => ?_⟩
    exact ((run.fail fails).console console).sound.collects_nothing reached words' line'

/-- A session that lets go of two containers that refer to each other. A third one will be their
holder when the first of them is finalized, and the policy is to report that. -/
def remorse : Shell :=
  (fresh.runScript ("policy raise\nnew k container\nnew a container\nnew b container\n" ++
    "link a b\nlink b a\nfinalizer a resurrect k\ndel a\ndel b")).2

theorem attained_remorse : Attained remorse :=
  (Attained.start (show Shell.start {} false = .ok fresh from rfl)).runScript _

/-- The first collection reports both as resurrected, and the second one says that it has collected
nothing. -/
theorem collection_repeats_remorse :
    ∃ sh₁ sh₂, execute "collect" (-1) remorse = .error (.resurrectionDetected [2, 3] 0) sh₁ ∧
      (∀ x o, sh₁.machine.memory.heap.get? x = some o → sh₁.machine.memory.heap.Reachable x) ∧
      execute "collect" (-1) sh₁ = .ok () sh₂ ∧ CollectsNothing sh₁ "collect" sh₂ ∧
      sh₂.machine.console.out = sh₁.machine.console.out ++ "collected 0\n" := by
  have words : Text.words "collect" = ["collect"] := by decide +kernel
  obtain ⟨sh, failed⟩ := exists_of_fault? (show remorse.fault? "collect" (-1) =
    some (.resurrectionDetected [2, 3] 0) by decide +kernel)
  have silent : (!(remorse.after "collect" (-1)).echo &&
      (remorse.after "collect" (-1)).machine.memory.collector.all
        (!·.debug.has .stats)) = true := by decide +kernel
  obtain ⟨sh₁, ended, reached, again⟩ := attained_remorse.collection_repeats words (-1)
  have same : sh = sh₁ := by
    rcases ended with done | ⟨ids, collected, reported⟩
    · cases failed.symm.trans done
    · cases failed.symm.trans reported
      rfl
  subst same
  obtain ⟨sh₂, succeeds, nothing⟩ := again sh.machine.console (-1) words
  obtain ⟨c, examined, (hc : sh.machine.memory.collector = some c), out⟩ := nothing.out
  refine ⟨sh, sh₂, failed, reached, succeeds, nothing, ?_⟩
  -- lines are not repeated, and statistics are not asked for
  simp only [after_of_error failed, hc, Option.all_some, Bool.and_eq_true, Bool.not_eq_true'] at silent
  rw [out, Collector.idleNotes, silent.1, silent.2]
  simp only [Bool.false_eq_true, if_false, String.append_empty]

end Shell

end Reclaim
