import Reclaim.Proofs.Ages
import Reclaim.Proofs.Lasting

/-!
# Annals

The sequences that a host keeps can be advanced by the host itself, or by a hook in the middle of an
operation. The annals of a run (`Machine.annals`) are the moments of all its operations, with a
moment for the end of each operation from outside as for the end of each step of a hook. Nothing
else is needed to know what becomes of a sequence: what a slot holds after a run is what it held
before, turned by one moment of the annals after the other (`Machine.annals_turn`).

Moments follow each other in time: along the annals heaps are later and later, and the buckets of a
collector agree with the heap (`Machine.Attained.annals_chronicle`).
-/

set_option autoImplicit false

namespace Reclaim

/-! ## Turns of a sequence -/

/-- The slot whose sequence the operation replaces or advances. -/
def Op.slot? : Op → Option Nat
  | .call (.snapshot slot) | .call (.snapshotNext slot) | .call (.snapshotRemaining slot) =>
    some slot
  | _ => none

/-- The slot whose sequence is replaced or advanced by the step that ends at the moment. -/
def Moment.slot? (m : Moment) : Option Nat :=
  match m.event with
  | .performed op _ _ => op.slot?
  | _ => none

/-- What a moment makes of the sequence in a slot, and which answer it gives if it is about that
slot. -/
inductive Moment.Turns (slot : Nat) : Moment → Snapshot → Snapshot → Prop where
  | taken {before m c q} : m.collector = some c →
      Turns slot ⟨.performed (.call (.snapshot slot)) before
        (.ok (.nat (Snapshot.of c.tracker).size)), m⟩ q (.of c.tracker)
  | refused {before m e q} :
      Turns slot ⟨.performed (.call (.snapshot slot)) before (.error e), m⟩ q q
  | next {before m} (q : Snapshot) :
      Turns slot ⟨.performed (.call (.snapshotNext slot)) before
        (.ok (.id? (q.next m.heap).1)), m⟩ q (q.next m.heap).2
  | remaining {before m} (q : Snapshot) :
      Turns slot ⟨.performed (.call (.snapshotRemaining slot)) before
        (.ok (.ids (q.remaining m.heap).1)), m⟩ q (q.remaining m.heap).2
  | other {m q} : m.slot? ≠ some slot → Turns slot m q q

/-- What moments make of the sequence in a slot, one after the other. -/
inductive Moment.TurnAll (slot : Nat) : List Moment → Snapshot → Snapshot → Prop where
  | nil {q} : TurnAll slot [] q q
  | cons {m ms q q' q''} : m.Turns slot q q' → TurnAll slot ms q' q'' → TurnAll slot (m :: ms) q q''

variable {slot : Nat} {hooks : Hooks} {self : ObjectId} {s s' : Machine} {op : Op}
  {outcome : Except Fault Answer} {q q' q'' : Snapshot} {m : Moment} {ms ms' : List Moment}

namespace Moment.TurnAll

theorem single (turns : m.Turns slot q q') : TurnAll slot [m] q q' := .cons turns .nil

theorem append (one : TurnAll slot ms q q') (two : TurnAll slot ms' q' q'') :
    TurnAll slot (ms ++ ms') q q'' := by
  induction one with
  | nil => exact two
  | cons turns _ ih => exact .cons turns (ih two)

theorem exists_of_append (all : TurnAll slot (ms ++ ms') q q'') :
    ∃ q', TurnAll slot ms q q' ∧ TurnAll slot ms' q' q'' := by
  induction ms generalizing q with
  | nil => exact ⟨q, .nil, all⟩
  | cons m ms ih =>
    cases all with
    | cons turns rest =>
      obtain ⟨q', one, two⟩ := ih rest
      exact ⟨q', .cons turns one, two⟩

/-- What becomes of a sequence before a moment, at it and after it. -/
theorem exists_of_between (all : TurnAll slot (ms ++ m :: ms') q q'') :
    ∃ q₁ q₂, TurnAll slot ms q q₁ ∧ m.Turns slot q₁ q₂ ∧ TurnAll slot ms' q₂ q'' := by
  obtain ⟨q₁, before, all⟩ := all.exists_of_append
  cases all with
  | cons turns after => exact ⟨q₁, _, before, turns, after⟩

end Moment.TurnAll

/-! ## The journal turns the sequences -/

namespace Machine

/-- The sequence that is kept in a slot. -/
def kept (s : Machine) (slot : Nat) : Snapshot := s.snapshots.getD slot ⟨0, []⟩

/-- The journal goes on, and what it adds turns the sequences in all slots. -/
def Recounts (s s' : Machine) : Prop :=
  ∃ ms : List Moment, s'.journal = ms.reverse ++ s.journal ∧
    ∀ slot, Moment.TurnAll slot ms (s.kept slot) (s'.kept slot)

/-- Memory may change in any way as long as neither the journal nor the sequences do. -/
theorem Recounts.of_same (journal : s'.journal = s.journal)
    (snapshots : s'.snapshots = s.snapshots) : s.Recounts s' := by
  refine ⟨[], journal, fun slot => ?_⟩
  rw [kept, kept, snapshots]
  exact .nil

/-- A moment is added that turns the sequences. -/
theorem Recounts.log {event : Event} (journal : s'.journal = s.journal)
    (turns : ∀ slot, Moment.Turns slot ⟨event, s'.memory⟩ (s.kept slot) (s'.kept slot)) :
    s.Recounts (s'.log event) :=
  ⟨[⟨event, s'.memory⟩], congrArg (List.cons _) journal, fun slot => .single (turns slot)⟩

theorem lasting_recounts : Lasting Recounts where
  trans := by
    rintro s s' s'' ⟨ms, journal, turns⟩ ⟨ms', journal', turns'⟩
    refine ⟨ms ++ ms', ?_, fun slot => (turns slot).append (turns' slot)⟩
    rw [journal', journal, List.reverse_append, List.append_assoc]
  aside journal snapshots _ := .of_same journal snapshots
  log s event other := .log rfl fun slot => .other fun touches => by
    cases event with
    | performed => cases other
    | _ => cases touches

end Machine

namespace Host

open Act Machine

/-- The sequence in one slot is replaced, and those in the other slots are left alone. -/
theorem kept_insert (s : Machine) (slot k : Nat) (q : Snapshot) :
    kept { s with snapshots := s.snapshots.insert slot q } k = if slot = k then q else s.kept k := by
  unfold kept
  rw [Std.ExtTreeMap.getD_insert]
  simp only [Std.compare_eq_iff_eq]

/-- When the call of a sequence is noted, it turns the sequence in its slot and no other. -/
theorem recounts_insert {op : Op} {m : Memory} (slot : Nat) (concerns : op.slot? = some slot)
    (turns : Moment.Turns slot ⟨.performed op m outcome, s.memory⟩ (s.kept slot) q) :
    s.Recounts (log { s with snapshots := s.snapshots.insert slot q } (.performed op m outcome)) := by
  refine .log rfl fun k => ?_
  rw [kept_insert]
  split
  · next same => exact same ▸ turns
  · next ne => exact .other fun touches => ne (Option.some.inj (concerns.symm.trans touches))

theorem setMemory_recounts (m : Memory) : (setMemory m).Upholds Recounts :=
  fun s => always_of_ok (setMemory_apply m s) (.of_same rfl rfl)

theorem configure_recounts (f : Collector → Except Fault Collector) :
    (configure f).Upholds Recounts := fun s => by
  rcases configure_cases f s with ⟨e, refused⟩ | ⟨c, c', -, -, configured⟩
  · exact always_of_error refused (lasting_recounts.refl s)
  · exact always_of_ok configured (.of_same rfl rfl)

theorem snapshot_recounts (slot : Nat)
    (run : attempt (perform hooks self (.call (.snapshot slot))) s = .ok outcome s') :
    s.Recounts (s'.log (.performed (.call (.snapshot slot)) s.memory outcome)) := by
  have answered : perform hooks self (.call (.snapshot slot)) s =
      (snapshot slot >>= fun n => pure (.nat n)) s := rfl
  rw [attempt_apply, answered, bind_apply] at run
  cases hc : s.memory.collector with
  | none =>
    rw [snapshot, bind_apply, collector_of_none hc] at run
    cases run
    refine .log rfl fun k => ?_
    by_cases same : k = slot
    · exact same ▸ .refused
    · exact .other fun touches => same (Option.some.inj touches).symm
  | some c =>
    rw [snapshot, bind_apply, collector_of_some hc] at run
    cases run
    exact recounts_insert slot rfl (.taken hc)

theorem advance_recounts {α : Type} (slot : Nat) (take : Snapshot → Heap → α × Snapshot)
    (answer : α → Answer) {op : Op} (concerns : op.slot? = some slot)
    (answered : perform hooks self op s = (advance slot take >>= fun a => pure (answer a)) s)
    (turns : Moment.Turns slot ⟨.performed op s.memory
      (.ok (answer (take (s.kept slot) s.memory.heap).1)), s.memory⟩ (s.kept slot)
      (take (s.kept slot) s.memory.heap).2)
    (run : attempt (perform hooks self op) s = .ok outcome s') :
    s.Recounts (s'.log (.performed op s.memory outcome)) := by
  rw [attempt_apply, answered] at run
  cases run
  exact recounts_insert slot concerns turns

/-- An operation that does not concern the sequences is noted without turning them. -/
theorem noted_recounts (unconcerned : op.slot? = none) (recounts : s.Recounts s') :
    s.Recounts (s'.log (.performed op s.memory outcome)) :=
  lasting_recounts.trans recounts <| .log rfl fun _ => .other fun touches => by
    cases unconcerned.symm.trans touches

/-- Whatever its outcome is, a step of a hook turns the sequences by the moments in its course and
the moment at its end. -/
theorem performed_recounts (H : hooks.Upholds Recounts)
    (run : attempt (perform hooks self op) s = .ok outcome s') :
    s.Recounts (s'.log (.performed op s.memory outcome)) := by
  have W := lasting_recounts
  have noted (unconcerned : op.slot? = none) (upholds : (perform hooks self op).Upholds Recounts) :
      s.Recounts (s'.log (.performed op s.memory outcome)) :=
    noted_recounts unconcerned (upholds.attempt.of_ok run)
  cases plain : op.isPlain with
  | true =>
    refine noted ?_ (W.perform H plain self)
    cases op with
    | call c => cases c <;> first | rfl | cases plain
    | _ => rfl
  | false =>
    cases op with
    | call c =>
      cases c with
      | snapshot slot => exact snapshot_recounts slot run
      | snapshotNext slot => exact advance_recounts slot Snapshot.next .id? rfl rfl (.next _) run
      | snapshotRemaining slot =>
        exact advance_recounts slot Snapshot.remaining .ids rfl rfl (.remaining _) run
      | setThresholds counts => exact noted rfl (W.answer (configure_recounts _) _)
      | _ => cases plain
    | raw r =>
      cases r with
      | attach settings =>
        exact noted rfl (W.answer (W.bind (W.still still_memory) fun _ =>
          W.bind (setMemory_recounts _) fun _ => W.bind (W.still (still_ofExcept _)) fun _ =>
            W.bind (W.still still_memory) fun _ => setMemory_recounts _) _)
      | detach =>
        exact noted rfl (W.answer (W.bind (W.still still_memory) fun _ => setMemory_recounts _) _)
      | _ => cases plain
    | _ => cases plain

theorem runScript_recounts (H : hooks.Upholds Recounts) (self : ObjectId) (script : Script) :
    (runScript hooks self script).Upholds Recounts :=
  lasting_recounts.runScript (fun run => performed_recounts H run) script

end Host

open Act Machine

/-- The books of a pass are no matter of the sequences. -/
theorem Pass.book_recounts (g : Generation) (options : PassOptions) (result : CycleReport) :
    (book g options result).Upholds Recounts := fun s => by
  cases hc : s.memory.collector with
  | none =>
    refine always_of_error (e := .collectorMissing) ?_ (lasting_recounts.refl s)
    rw [book, bind_apply, collector_of_none hc]
  | some c => exact always_of_ok (book_apply hc g options result) (.of_same rfl rfl)

namespace Hooks

theorem inPass_recounts (n : Nat) : (inPass n).Upholds Recounts := by
  induction n with
  | zero => exact ⟨fun _ _ => lasting_recounts.starve, nofun⟩
  | succ n ih => exact ⟨Host.runScript_recounts ih, nofun⟩

theorem ofPass_recounts (n : Nat) : (ofPass n).Upholds Recounts where
  finalization := (inPass_recounts n).finalization
  callback := Host.runScript_recounts (inPass_recounts n) 0

/-- Whatever hooks do, their steps recount what becomes of the sequences. -/
theorem outside_recounts (n : Nat) : (outside n).Upholds Recounts := by
  have passes (n : Nat) {pass : PassHooks} (e : (outside n).pass? = some pass) (g : Generation) :
      (Pass.run pass g).Upholds Recounts := by
    obtain rfl := eq_ofPass e
    exact lasting_recounts.pass (ofPass_recounts n) g (Pass.book_recounts g)
  induction n with
  | zero => exact ⟨fun _ _ => lasting_recounts.starve, passes 0⟩
  | succ n ih => exact ⟨Host.runScript_recounts ih, passes (n + 1)⟩

end Hooks

/-! ## Runs -/

namespace Machine

/-- The moments of a run, in order, those at which its operations end included. -/
def annals (s : Machine) : List Op → List Moment
  | [] => []
  | op :: rest =>
      (s.perform op).1.moments ++
        ⟨.performed op s.memory (s.perform op).1.outcome, (s.perform op).2.memory⟩ ::
          (s.perform op).2.annals rest

/-- An operation from outside turns the sequences by its moments. -/
theorem perform_turn (s : Machine) (op : Op) (slot : Nat) :
    Moment.TurnAll slot ((s.perform op).1.moments ++
        [⟨.performed op s.memory (s.perform op).1.outcome, (s.perform op).2.memory⟩])
      (s.kept slot) ((s.perform op).2.kept slot) := by
  obtain ⟨outcome, s', run⟩ := exists_attempt (Host.perform (s.hooksFor op) 0 op) s.forget
  obtain ⟨ms, journal, turns⟩ := Host.performed_recounts (Hooks.outside_recounts _) run
  rw [perform_of_attempt run]
  -- the journal is empty at the start, and has the last moment first
  have told : s'.journal.reverse ++ [⟨.performed op s.memory outcome, s'.memory⟩] = ms := by
    have reversed := congrArg List.reverse journal
    rwa [List.reverse_append, List.reverse_reverse, log, List.reverse_cons] at reversed
  show Moment.TurnAll slot (s'.journal.reverse ++ _) (s.kept slot) (s'.kept slot)
  rw [told]
  exact turns slot

/-- The annals of a run tell what becomes of the sequences that are kept. -/
theorem annals_turn (s : Machine) (ops : List Op) (slot : Nat) :
    Moment.TurnAll slot (s.annals ops) (s.kept slot) ((s.performAll ops).2.kept slot) := by
  induction ops generalizing s with
  | nil => exact .nil
  | cons op ops ih =>
    have turns := (perform_turn s op slot).append (ih (s.perform op).2)
    rwa [List.append_assoc, List.singleton_append] at turns

theorem timeline_eq (s : Machine) (ops : List Op) :
    s.timeline ops = s.memory :: (s.annals ops).map (·.memory) := by
  induction ops generalizing s with
  | nil => rfl
  | cons op ops ih => rw [timeline, annals, List.map_append, List.map_cons, ih]

end Machine

/-- Handles are those of the heap, and what the collector files are containers that live. -/
structure Memory.Filed (m : Memory) : Prop where
  keyed : m.heap.Keyed
  files : ∀ {c}, m.collector = some c → c.tracker.Files m.heap

theorem Memory.Settled.filed {m : Memory} (S : m.Settled) : m.Filed := ⟨S.balanced.isKeyed, S.files⟩

namespace Machine

theorem Attained.perform_filed (run : Attained s) (host : op.isOutsideOp = true) :
    Chronicle Memory.Filed s.memory.heap (s.perform op).2 := by
  rcases perform_cases host with host | ⟨collector, -, replaced⟩
  · exact perform_chronicle run.settled host fun c _ sound =>
      ⟨sound.balanced.isKeyed, sound.files trivial⟩
  · rw [replaced]
    exact .of_nil rfl (.refl _)

/-- Along the annals of a run, what the collector files are live containers, and each moment has a
later heap than those before. -/
theorem Attained.annals_chronicle (run : Attained s) {ops : List Op}
    (host : ops.all Op.isOutsideOp = true) :
    (∀ m ∈ s.annals ops, m.memory.Filed) ∧
      (s.annals ops).Pairwise fun m m' => m.memory.heap.Later m'.memory.heap := by
  obtain ⟨all, ordered⟩ := timeline_chronicle (P := Memory.Filed) (fun run => run.settled.filed)
    (fun run host => ⟨run.perform host, run.perform_filed host⟩) run host
  rw [timeline_eq] at all ordered
  have later := (List.pairwise_cons.mp ordered).2
  rw [List.pairwise_map] at later
  exact ⟨fun m mem => (all _ (List.mem_cons_of_mem _ (List.mem_map_of_mem mem))).1, later⟩

end Machine

end Reclaim
