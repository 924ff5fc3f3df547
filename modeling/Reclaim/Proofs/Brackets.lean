import Reclaim.Proofs.CountingLaw

/-!
# Passes are bracketed

As long as a callback is registered, it is told about both ends of every pass, and nothing else. As
no pass starts while another one is running, the ends come in pairs (`Bracketed`): a pass is running
from before the start is told until after the stop is, and in between it is entered into the books
once, with the amounts that the callback is told. Elsewhere no pass is running, and the books stay
as they are (`Machine.Attained.passes_bracketed`).

A callback is told once about each end because callbacks have different numbers, and it is told
about both because a callback that is cleared does not come back (`Machine.Follows`).
-/

set_option autoImplicit false

namespace Reclaim

open Machine

variable {sc : Scope} {b : Bool} {s s' s'' : Machine} {op : Op} {i : Nat} {B B' B'' : Books}
  {ms ms' : List Moment}

/-- What the callback with a number is told. -/
def Event.told? (i : Nat) : Event → Option (Phase × PassInfo)
  | .calledBack index phase info => if index = i then some (phase, info) else none
  | _ => none

theorem Event.told?_eq_none {event : Event}
    (untold : ∀ {index phase info}, event ≠ .calledBack index phase info) :
    event.told? i = none := by
  cases event with
  | calledBack _ _ _ => exact absurd rfl untold
  | _ => rfl

/-- All that a callback is told in the course of some moments. -/
def told (i : Nat) (ms : List Moment) : List (Phase × PassInfo) := ms.filterMap (·.event.told? i)

/-- The callback is told nothing. A pass is running or not, and the books are those given. -/
structure Moment.Silent (i : Nat) (b : Bool) (B : Books) (m : Moment) : Prop where
  untold : m.event.told? i = none
  collecting : m.memory.isCollecting = b
  books : m.memory.books? = some B

/-- The callback is told about one end of a pass, which is running. -/
structure Moment.Tells (i : Nat) (phase : Phase) (info : PassInfo) (B : Books) (m : Moment) :
    Prop where
  event : m.event = .calledBack i phase info
  collecting : m.memory.isCollecting = true
  books : m.memory.books? = some B

/-- The moments of a run as the callback with number `i` sees them, with the books at both ends. -/
inductive Bracketed (i : Nat) : Books → List Moment → Books → Prop where
  | nil {B : Books} : Bracketed i B [] B
  /-- Outside of passes it is told nothing. -/
  | idle {B B' : Books} {m : Moment} {ms : List Moment} : m.Silent i false B →
      Bracketed i B ms B' → Bracketed i B (m :: ms) B'
  /-- It is told that a pass starts, which is then entered into the books, and that it stops. -/
  | pass {B B' : Books} {g : Generation} {collected uncollectable : Nat} {start stop : Moment}
      {early before after late ms : List Moment} :
      (∀ m ∈ early, m.Silent i true B) → start.Tells i .start ⟨g, 0, 0⟩ B →
      (∀ m ∈ before, m.Silent i true B) →
      (∀ m ∈ after, m.Silent i true (B.add g collected uncollectable)) →
      stop.Tells i .stop ⟨g, collected, uncollectable⟩ (B.add g collected uncollectable) →
      (∀ m ∈ late, m.Silent i true (B.add g collected uncollectable)) →
      Bracketed i (B.add g collected uncollectable) ms B' →
      Bracketed i B (early ++ start :: (before ++ (after ++ stop :: (late ++ ms)))) B'

namespace Bracketed

theorem append (one : Bracketed i B ms B') (two : Bracketed i B' ms' B'') :
    Bracketed i B (ms ++ ms') B'' := by
  induction one with
  | nil => exact two
  | idle silent _ ih => exact .idle silent (ih two)
  | pass early start before after stop late _ ih =>
    simp only [List.append_assoc, List.cons_append]
    exact .pass early start before after stop late (ih two)

theorem of_idle (idle : ∀ m ∈ ms, m.Silent i false B) : Bracketed i B ms B := by
  induction ms with
  | nil => exact .nil
  | cons m ms ih =>
    exact .idle (idle m List.mem_cons_self) (ih fun m' mem => idle m' (List.mem_cons_of_mem m mem))

theorem told_append_of_silent (silent : ∀ m ∈ ms, m.Silent i b B) :
    Reclaim.told i (ms ++ ms') = Reclaim.told i ms' := by
  have none : Reclaim.told i ms = [] :=
    List.filterMap_eq_nil_iff.mpr fun m mem => (silent m mem).untold
  rw [Reclaim.told, List.filterMap_append]
  exact congrArg (· ++ _) none

theorem told_cons {m : Moment} {phase : Phase} {info : PassInfo} (tells : m.Tells i phase info B) :
    Reclaim.told i (m :: ms) = (phase, info) :: Reclaim.told i ms := by
  have some : m.event.told? i = some (phase, info) := by
    rw [tells.event, Event.told?, if_pos rfl]
  exact List.filterMap_cons_some some

/-- What the callback is told is a start and a stop for every pass, and the passes add up to the
change of the books. -/
theorem told (bracketed : Bracketed i B ms B') : ∃ passes : List PassInfo,
    Reclaim.told i ms = passes.flatMap (fun p => [(.start, ⟨p.generation, 0, 0⟩), (.stop, p)]) ∧
    B' = passes.foldl (fun B p => B.add p.generation p.collected p.uncollectable) B := by
  induction bracketed with
  | nil => exact ⟨[], rfl, rfl⟩
  | idle silent _ ih =>
    obtain ⟨passes, told, books⟩ := ih
    refine ⟨passes, ?_, books⟩
    rw [← told]
    exact List.filterMap_cons_none silent.untold
  | @pass B B' g collected uncollectable _ _ _ _ _ _ _ early start before after stop late _ ih =>
    obtain ⟨passes, told, books⟩ := ih
    refine ⟨⟨g, collected, uncollectable⟩ :: passes, ?_, books⟩
    rw [told_append_of_silent early, told_cons start, told_append_of_silent before,
      told_append_of_silent after, told_cons stop, told_append_of_silent late, told]
    rfl

end Bracketed

namespace Machine

/-! ## Stretches of a pass -/

/-- The callback is told nothing between two machines, and the books stay as they are. -/
structure Silent (i : Nat) (b : Bool) (B : Books) (s s' : Machine) : Prop where
  journal : ∃ ms : List Moment, s'.journal = ms.reverse ++ s.journal ∧ ∀ m ∈ ms, m.Silent i b B
  books : s'.memory.books? = some B

theorem Silent.refl (books : s.memory.books? = some B) : Silent i b B s s :=
  ⟨⟨[], rfl, fun _ mem => absurd mem List.not_mem_nil⟩, books⟩

theorem Silent.trans (one : Silent i b B s s') (two : Silent i b B s' s'') :
    Silent i b B s s'' := by
  obtain ⟨ms, hms, silent⟩ := one.journal
  obtain ⟨ms', hms', silent'⟩ := two.journal
  refine ⟨⟨ms ++ ms', ?_, fun m mem => ?_⟩, two.books⟩
  · rw [hms', hms, List.reverse_append, List.append_assoc]
  · exact (List.mem_append.mp mem).elim (silent m) (silent' m)

theorem Discreet.silent (discreet : Discreet sc b s s') (books : s.memory.books? = some B) :
    Silent i b B s s' := by
  obtain ⟨ms, hms, plain⟩ := discreet.journal
  refine ⟨⟨ms.reverse, by rw [hms, List.reverse_reverse], fun m mem => ?_⟩,
    discreet.books.trans books⟩
  obtain ⟨untold, collecting, same, -, -⟩ := plain m (List.mem_reverse.mp mem)
  exact ⟨Event.told?_eq_none untold, collecting, same.trans books⟩

section Round

variable {phase : Phase} {info : PassInfo} {cbs : List Callback} {cb : Callback}

/-- Another callback is told something. -/
theorem silent_of_other (collecting : s.memory.isCollecting = true)
    (discreet : Discreet sc true (s.log (.calledBack cb.index phase info)) s')
    (books : s.memory.books? = some B) (other : cb.index ≠ i) : Silent i true B s s' := by
  have note : Silent i true B s (s.log (.calledBack cb.index phase info)) := by
    refine ⟨⟨[_], rfl, fun m mem => ?_⟩, books⟩
    rw [List.mem_singleton.mp mem]
    exact ⟨if_neg other, collecting, books⟩
  exact note.trans (discreet.silent books)

/-- A round that leaves the callback out. -/
theorem Round.silent (round : Round sc phase info cbs s s') (books : s.memory.books? = some B)
    (absent : ∀ cb ∈ cbs, cb.index ≠ i) : Silent i true B s s' := by
  induction round with
  | nil => exact .refl books
  | @cons cb cbs s _ _ collecting discreet _ ih =>
    have first := silent_of_other collecting discreet books (absent cb List.mem_cons_self)
    exact first.trans (ih first.books fun cb' mem => absent cb' (List.mem_cons_of_mem cb mem))

/-- In a round that includes the callback it is told once. -/
theorem Round.tells (round : Round sc phase info cbs s s') (books : s.memory.books? = some B)
    (apart : (cbs.map (·.index)).Pairwise (· < ·)) (present : cb ∈ cbs) :
    ∃ t, Silent cb.index true B s t ∧ t.memory.isCollecting = true ∧
      Silent cb.index true B (t.log (.calledBack cb.index phase info)) s' := by
  induction round with
  | nil => exact absurd present List.not_mem_nil
  | @cons first cbs s _ _ collecting discreet round ih =>
    rw [List.map_cons, List.pairwise_cons] at apart
    rcases List.mem_cons.mp present with rfl | later
    · -- those that are told later have greater numbers
      have absent (cb' : Callback) (mem : cb' ∈ cbs) : cb'.index ≠ cb.index :=
        Nat.ne_of_gt (apart.1 cb'.index (List.mem_map_of_mem mem))
      have rest := discreet.silent (i := cb.index) books
      exact ⟨s, .refl books, collecting, rest.trans (round.silent rest.books absent)⟩
    · have other : first.index ≠ cb.index :=
        Nat.ne_of_lt (apart.1 cb.index (List.mem_map_of_mem later))
      have before := silent_of_other collecting discreet books other
      obtain ⟨t, early, running, late⟩ := ih before.books apart.2 later
      exact ⟨t, before.trans early, running, late⟩

end Round

/-! ## Runs -/

/-- What the callback sees between two machines. -/
def Brackets (i : Nat) (s s' : Machine) : Prop :=
  ∃ (ms : List Moment) (B B' : Books), s'.journal = ms.reverse ++ s.journal ∧
    s.memory.books? = some B ∧ s'.memory.books? = some B' ∧ Bracketed i B ms B'

theorem Brackets.trans (one : Brackets i s s') (two : Brackets i s' s'') : Brackets i s s'' := by
  obtain ⟨ms, B, B', hms, books, books', first⟩ := one
  obtain ⟨ms', B₁, B'', hms', books₁, books'', second⟩ := two
  obtain rfl : B' = B₁ := Option.some.inj (books'.symm.trans books₁)
  refine ⟨ms ++ ms', B, B'', ?_, books, books'', first.append second⟩
  rw [hms', hms, List.reverse_append, List.append_assoc]

theorem Brackets.books (brackets : Brackets i s s') : ∃ B', s'.memory.books? = some B' := by
  obtain ⟨-, -, B', -, -, books', -⟩ := brackets
  exact ⟨B', books'⟩

/-- A callback that is still there at the end was there before, unless it is a new one. -/
theorem Follows.kept {cb : Callback} (follows : Follows sc s s') (kept : cb ∈ s'.callbacks)
    (old : cb.index < s.registered) : cb ∈ s.callbacks := by
  rcases follows.callbacks cb kept with mem | new
  · exact mem
  · exact absurd old (Nat.not_lt.mpr new)

/-- Outside of passes the callback is told nothing. -/
theorem Discreet.brackets (discreet : Discreet sc false s s') (books : s.memory.books? = some B) :
    Brackets i s s' := by
  obtain ⟨⟨ms, hms, idle⟩, books'⟩ := discreet.silent (i := i) books
  exact ⟨ms, B, B, hms, books, books', .of_idle idle⟩

/-- A pass that tells the callback of both of its ends on the way. -/
theorem brackets_of_ends {g : Generation} {collected uncollectable : Nat} {t u u' t' : Machine}
    (books : s.memory.books? = some B) (early : Silent i true B s t)
    (started : t.memory.isCollecting = true)
    (before : Silent i true B (t.log (.calledBack i .start ⟨g, 0, 0⟩)) u)
    (after : Silent i true (B.add g collected uncollectable) u' t')
    (stopped : t'.memory.isCollecting = true)
    (late : Silent i true (B.add g collected uncollectable)
      (t'.log (.calledBack i .stop ⟨g, collected, uncollectable⟩)) s')
    (booked : u'.journal = u.journal) : Brackets i s s' := by
  obtain ⟨early', hearly, earlySilent⟩ := early.journal
  obtain ⟨before', hbefore, beforeSilent⟩ := before.journal
  obtain ⟨after', hafter, afterSilent⟩ := after.journal
  obtain ⟨late', hlate, lateSilent⟩ := late.journal
  have starts : Moment.Tells i .start ⟨g, 0, 0⟩ B
      ⟨.calledBack i .start ⟨g, 0, 0⟩, t.memory⟩ := ⟨rfl, started, early.books⟩
  have stops : Moment.Tells i .stop ⟨g, collected, uncollectable⟩ (B.add g collected uncollectable)
      ⟨.calledBack i .stop ⟨g, collected, uncollectable⟩, t'.memory⟩ := ⟨rfl, stopped, after.books⟩
  refine ⟨_, B, _, ?_, books, late.books,
    .pass earlySilent starts beforeSilent afterSilent stops lateSilent .nil⟩
  have journal (u : Machine) (event : Event) :
      (u.log event).journal = ⟨event, u.memory⟩ :: u.journal := rfl
  rw [hlate, journal, hafter, booked, hbefore, journal, hearly]
  simp

theorem books?_mark (s : Machine) (value : Bool) :
    (s.mapCollector ({ · with collecting := value })).memory.books? = s.memory.books? :=
  Option.map_map ..

/-- A pass, as a callback sees it that is there all the time. -/
theorem Passes.brackets {cb : Callback} (passes : Passes sc s s') (N : s.Numbered)
    (books : s.memory.books? = some B) (kept : cb ∈ s'.callbacks)
    (old : cb.index < s.registered) : Brackets cb.index s s' := by
  obtain ⟨g, t, told, rfl⟩ := passes
  have marked : Follows sc s (s.mapCollector ({ · with collecting := true })) :=
    follows_mark s true
  have books := (books?_mark s true).trans books
  suffices brackets : Brackets cb.index (s.mapCollector ({ · with collecting := true })) t by
    unfold Brackets at brackets ⊢
    rwa [books?_mark] at brackets ⊢
  cases told with
  | @intro s₁ s₂ s₃ _ c saves r start discreet hc discreet' stop =>
    have booked : Follows sc s₂ (s₂.withMemory (s₂.memory.book c g saves r)) :=
      follows_book s₂ c g saves r
    have follows := start.follows.trans
      (discreet.toFollows.trans (booked.trans discreet'.toFollows))
    -- it is registered at both ends of the pass
    have toStop : cb ∈ s₃.callbacks := (stop.follows.trans (follows_mark _ false)).kept kept
      (Nat.lt_of_lt_of_le old follows.registered)
    obtain ⟨t₁, early, started, before⟩ :=
      start.tells books (marked.numbered N).ascending (follows.kept toStop old)
    have before := before.trans (discreet.silent before.books)
    have entered : (s₂.withMemory (s₂.memory.book c g saves r)).memory.books? =
        some (B.add g r.collected.length r.resurrected.length) := by
      rw [withMemory_memory, Memory.books?_book hc, before.books, Option.map_some]
    have after := discreet'.silent (i := cb.index) entered
    obtain ⟨t₂, after', stopped, late⟩ :=
      stop.tells after.books ((marked.trans follows).numbered N).ascending toStop
    exact brackets_of_ends books early started before (after.trans after') stopped late rfl

/-- What a callback sees that is there all the time. -/
theorem Conduct.brackets {cb : Callback} (conduct : Conduct sc false s s') (N : s.Numbered)
    (books : s.memory.books? = some B) (kept : cb ∈ s'.callbacks)
    (old : cb.index < s.registered) : Brackets cb.index s s' := by
  induction conduct with
  | refl =>
    have nothing : Discreet sc false s s := .refl s
    exact nothing.brackets books
  | @tail t s' conduct last ih =>
    have before : Follows sc s t := Conduct.follows (b := false) conduct
    have here := Nat.lt_of_lt_of_le old before.registered
    rcases last with discreet | passes
    · have first := ih (discreet.toFollows.kept kept here)
      obtain ⟨B', books'⟩ := first.books
      exact first.trans (discreet.brackets books')
    · have first := ih (passes.follows.kept kept here)
      obtain ⟨B', books'⟩ := first.books
      exact first.trans (passes.brackets (before.numbered N) books' kept here)

theorem books?_of_mem_callbacks {cb : Callback} (mem : cb ∈ s.callbacks) :
    ∃ B, s.memory.books? = some B := by
  unfold callbacks at mem
  unfold Memory.books?
  cases hc : s.memory.collector with
  | none =>
    rw [hc] at mem
    exact absurd mem List.not_mem_nil
  | some c => exact ⟨c.books, rfl⟩

theorem callbacks_of_fresh {collector : Option Collector}
    (fresh : ∀ c, collector = some c → ∃ settings, Collector.start settings = .ok c) :
    (s.withMemory { s.memory with collector }).callbacks = [] := by
  unfold callbacks
  rw [withMemory_memory]
  cases collector with
  | none => rfl
  | some c =>
    obtain ⟨settings, run⟩ := fresh c rfl
    exact (Collector.start_fresh run).2.2.1

theorem numbered_of_callbacks (none : s.callbacks = []) : s.Numbered :=
  ⟨by rw [none]; exact .nil, fun cb mem => absurd (none ▸ mem) List.not_mem_nil⟩

/-- An operation from outside takes over the callbacks, or leaves none. -/
theorem Attained.perform_follows (run : Attained s) (host : op.isOutsideOp = true) :
    Conduct (s.memory.scope op) false s.forget (s.perform op).2 ∨
      (s.perform op).2.callbacks = [] ∧ (s.perform op).2.registered = s.registered := by
  rcases perform_cases host with host | ⟨collector, fresh, e⟩
  · exact .inl (perform_leads_scope run.settled host).conduct
  · rw [e]
    exact .inr ⟨callbacks_of_fresh fresh, rfl⟩

theorem Attained.numbered (run : Attained s) : s.Numbered := by
  induction run with
  | start settings? run =>
    obtain ⟨collector, rfl, fresh⟩ := exists_of_start run
    exact numbered_of_callbacks (callbacks_of_fresh (s := {}) fresh)
  | @perform s op before host ih =>
    rcases before.perform_follows host with conduct | ⟨none, -⟩
    · exact conduct.follows.numbered ⟨ih.ascending, ih.registered⟩
    · exact numbered_of_callbacks none

/-- A callback that is registered at the end of a run and not new was registered at its start. -/
theorem Attained.kept (run : Attained s) {cb : Callback} {ops : List Op}
    (host : ops.all Op.isOutsideOp = true) (kept : cb ∈ (s.performAll ops).2.callbacks)
    (old : cb.index < s.registered) : cb ∈ s.callbacks := by
  induction ops generalizing s with
  | nil => exact kept
  | cons op ops ih =>
    rw [List.all_cons, Bool.and_eq_true] at host
    have next := ih (run.perform host.1) host.2 kept
    rcases run.perform_follows host.1 with conduct | ⟨none, registered⟩
    · exact conduct.follows.kept (next (Nat.lt_of_lt_of_le old conduct.follows.registered)) old
    · rw [none] at next
      exact absurd (next (registered ▸ old)) List.not_mem_nil

/-- What a callback sees of a run, if it is registered before and after it. -/
theorem Attained.bracketed (run : Attained s) {cb : Callback} {ops : List Op}
    (host : ops.all Op.isOutsideOp = true) (kept : cb ∈ (s.performAll ops).2.callbacks)
    (old : cb.index < s.registered) (books : s.memory.books? = some B) :
    ∃ B', (s.performAll ops).2.memory.books? = some B' ∧
      Bracketed cb.index B (s.history ops) B' := by
  induction ops generalizing s B with
  | nil => exact ⟨B, books, .nil⟩
  | cons op ops ih =>
    rw [List.all_cons, Bool.and_eq_true] at host
    have next := (run.perform host.1).kept host.2 kept
    rcases run.perform_follows host.1 with conduct | ⟨none, registered⟩
    · have here := Nat.lt_of_lt_of_le old conduct.follows.registered
      obtain ⟨ms, B₁, B₂, journal, books₁, books₂, first⟩ :=
        Conduct.brackets conduct ⟨run.numbered.ascending, run.numbered.registered⟩ books
          (next here) old
      obtain rfl : B = B₁ := Option.some.inj (books.symm.trans books₁)
      have moments : (s.perform op).1.moments = ms := by
        rw [moments_eq, journal]
        exact (congrArg List.reverse (List.append_nil _)).trans (List.reverse_reverse _)
      obtain ⟨B', books', rest⟩ := ih (run.perform host.1) host.2 kept here books₂
      refine ⟨B', books', ?_⟩
      rw [history_cons, moments]
      exact first.append rest
    · rw [none] at next
      exact absurd (next (registered ▸ old)) List.not_mem_nil

/-- Whenever a callback is told something, a pass is running. -/
theorem Attained.collecting_of_calledBack (run : Attained s) {ops : List Op}
    (host : ops.all Op.isOutsideOp = true) {m : Moment} (mem : m ∈ s.history ops) {phase : Phase}
    {info : PassInfo} (e : m.event = .calledBack i phase info) :
    m.memory.isCollecting = true := by
  induction ops generalizing s with
  | nil => exact absurd mem List.not_mem_nil
  | cons op ops ih =>
    rw [List.all_cons, Bool.and_eq_true] at host
    rw [history_cons] at mem
    rcases List.mem_append.mp mem with mem | mem
    · rcases run.adds host.1 m mem with ⟨b, books, plain⟩ | ⟨-, collecting⟩
      · exact absurd e plain.untold
      · exact collecting
    · exact ih (run.perform host.1) host.2 mem

/-- Passes never nest and are bracketed. Take a run from an attained machine in the course of which
a callback stays registered. Its moments are bracketed: the callback is told of a start and then of
a stop, each time about the same generation, and of nothing in between; from before the one until
after the other a pass is running, and it is entered into the books once, with the amounts that the
stop tells; outside of passes none is running, and the books stay as they are. A pass is running
whenever any callback is called, and none is after an operation, whether it succeeds or not. -/
theorem Attained.passes_bracketed (run : Attained s) {cb : Callback} (registered : cb ∈ s.callbacks)
    {ops : List Op} (host : ops.all Op.isOutsideOp = true)
    (kept : cb ∈ (s.performAll ops).2.callbacks) :
    (∃ B B', s.memory.books? = some B ∧ (s.performAll ops).2.memory.books? = some B' ∧
      Bracketed cb.index B (s.history ops) B' ∧ ∃ passes : List PassInfo,
        told cb.index (s.history ops) =
          passes.flatMap (fun p => [(.start, ⟨p.generation, 0, 0⟩), (.stop, p)]) ∧
        B' = passes.foldl (fun B p => B.add p.generation p.collected p.uncollectable) B) ∧
    (∀ m ∈ s.history ops, ∀ index phase info, m.event = .calledBack index phase info →
      m.memory.isCollecting = true) ∧
    ∀ done, done <+: ops → (s.performAll done).2.memory.isCollecting = false := by
  refine ⟨?_, fun m mem index phase info => run.collecting_of_calledBack host mem,
    fun done before => ?_⟩
  · obtain ⟨B, books⟩ := books?_of_mem_callbacks registered
    obtain ⟨B', books', bracketed⟩ :=
      run.bracketed host kept (run.numbered.registered cb registered) books
    exact ⟨B, B', books, books', bracketed, bracketed.told⟩
  · have host : done.all Op.isOutsideOp = true :=
      List.all_eq_true.mpr fun op mem => List.all_eq_true.mp host op (before.subset mem)
    exact (run.performAll host).settled.idle

/-- A hook that allocates, starts passes in vain, and throws. -/
def bustle : Script :=
  [⟨.call (.allocateMany .container 3), false⟩, ⟨.call (.collect 2), true⟩,
    ⟨.call (.throw "enough"), false⟩]

/-- A collector that starts passes often, reports resurrected objects by a fault, and has a callback
that makes as many new objects as it can. -/
def busy : Machine :=
  (performAll {} [.raw (.attach { thresholds := #v[2, 2, 2], policy := .raise }),
    .addCallback .both bustle]).2

/-- A container that refers to itself and is resurrected by its finalizer, and one that is not. -/
def commotion : List Op :=
  [.call (.allocate .container "node"), .call (.allocate .container "node"),
    .call (.addEdge (.id 1) (.id 1)), .call (.addEdge (.id 2) (.id 2)),
    .setFinalizer (.id 1) (⟨.call (.retain .self), false⟩ :: bustle),
    .setFinalizer (.id 2) bustle, .call (.release (.id 1)), .call (.release (.id 2)),
    .call (.collect 1), .call (.allocate .atom "leaf")]

theorem passes_bracketed_commotion :
    (∃ passes : List PassInfo, told 0 (busy.history commotion) =
      passes.flatMap (fun p => [(.start, ⟨p.generation, 0, 0⟩), (.stop, p)])) ∧
      told 0 (busy.history commotion) =
        [(.start, ⟨1, 0, 0⟩), (.stop, ⟨1, 1, 1⟩), (.start, ⟨0, 0, 0⟩), (.stop, ⟨0, 0, 0⟩)] ∧
      (busy.performAll commotion).2.memory.isCollecting = false := by
  have run : Attained busy := .performAll (.start none rfl) (by decide +kernel)
  have host : commotion.all Op.isOutsideOp = true := by decide +kernel
  have only : (busy.performAll commotion).2.callbacks.map (·.index) = [0] := by decide +kernel
  obtain ⟨cb, kept, number⟩ : ∃ cb ∈ (busy.performAll commotion).2.callbacks, cb.index = 0 := by
    rw [← List.mem_map, only]
    exact List.mem_cons_self
  have registered : cb ∈ busy.callbacks := run.kept host kept (by rw [number]; decide +kernel)
  obtain ⟨⟨B, B', -, -, -, passes, told, -⟩, -, idle⟩ := run.passes_bracketed registered host kept
  rw [number] at told
  exact ⟨⟨passes, told⟩, by decide +kernel, idle _ (List.prefix_refl _)⟩

end Machine

end Reclaim
