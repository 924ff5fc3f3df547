import Reclaim.Proofs.Books
import Reclaim.Proofs.Soundness

/-!
# How machines conduct themselves

Steps say little about when hooks run, as every event may be noted at any time. What a run owes to
passes is stated here. While no pass begins or ends a machine is discreet (`Machine.Discreet`): no
callback is told anything, the books stay as they are, and every step of a hook comes from an
operation performed at a sound moment (`Op.Origin`). A pass is told to the callbacks that are
registered at its start and at its end, and is entered into the books once in between
(`Machine.Told`). Outside of passes a machine is discreet apart from whole passes, so passes never
nest (`Machine.Conduct`).

In a scope whose hooks install no finalizer, nothing becomes pending; in one whose hooks leave the
policy alone, the policy stays what it is (`Machine.Follows`).
-/

set_option autoImplicit false

namespace Reclaim

variable {sc : Scope} {b : Bool} {L L' : Loose} {Q Q' : ObjectId → Prop} {s s' s'' : Machine}
  {x : ObjectId}

/-- Hooks install no finalizer. -/
def Scope.Fixed (sc : Scope) : Prop := ∀ id script, ¬ sc.allows (.setFinalizer id script)

/-- Hooks leave the policy alone. -/
def Scope.Steady (sc : Scope) : Prop := ∀ policy, ¬ sc.allows (.call (.setPolicy policy))

/-- The finalizer of an object that still has to run before the object may be freed. -/
def Heap.pending? (h : Heap) (x : ObjectId) : Option Script :=
  (h.get? x).bind (·.pendingFinalizer?)

theorem Heap.pending?_of_map {h h' : Heap}
    (same : (h'.get? x).map Object.pendingFinalizer? = (h.get? x).map Object.pendingFinalizer?) :
    h'.pending? x = h.pending? x := by
  have join (g : Option Object) : g.bind (·.pendingFinalizer?) =
      (g.map Object.pendingFinalizer?).join := by
    cases g <;> rfl
  unfold pending?
  rw [join, join, same]

theorem Heap.pending?_of_isSpent {h : Heap} (spent : h.isSpent x = true) :
    h.pending? x = none := by
  unfold pending?
  cases hx : h.get? x with
  | none => rfl
  | some o => exact not_pending_of_isSpent spent hx

theorem Heap.pending?_eq_none {h : Heap}
    (none : ¬ (h.get? x).any (·.hasPendingFinalizer) = true) : h.pending? x = .none := by
  unfold pending?
  cases hx : h.get? x with
  | none => rfl
  | some o => simpa [hx, Object.hasPendingFinalizer] using none

/-- The policy of the collector, if there is one. -/
def Memory.policy? (m : Memory) : Option ResurrectionPolicy := m.collector.map (·.policy)

/-- A change of a collector's settings that registers no callback. -/
structure Collector.Retuned (sc : Scope) (c c' : Collector) : Prop
    extends c.Reconfigured sc c' where
  cleared : c'.callbacks.Sublist c.callbacks
  policy : sc.Steady → c'.policy = c.policy

/-! ## Moments between passes -/

/-- The hooks that an operation sets off while a pass is running, or while none is. -/
def Hooks.within : Bool → Nat → Hooks
  | true => inPass
  | false => outside

namespace Machine

/-- A moment of a run: some references are loose, only objects of `Q` are marked as being freed,
and a pass is running or not. -/
structure At (sc : Scope) (b : Bool) (L : Loose) (Q : ObjectId → Prop) (s : Machine) : Prop where
  sound : s.memory.Sound sc L
  freeing : s.memory.heap.FreeingIn Q
  collecting : s.memory.isCollecting = b

theorem At.mono (A : At sc b L Q s) (sub : ∀ x, Q x → Q' x) : At sc b L Q' s :=
  ⟨A.sound, fun x o hx f => sub x (A.freeing x o hx f), A.collecting⟩

/-- The counting law holds where nothing is loose. -/
theorem At.consistent (A : At sc b Loose.none (fun _ => False) s) : s.memory.heap.Consistent :=
  A.sound.balanced.consistent A.freeing

/-- What is sound for the whole run is so while a pass is at work. -/
theorem At.calm (A : At sc b L Q s) : At sc.calm b L Q s := ⟨A.sound.calm, A.freeing, A.collecting⟩

/-- What is sound does not depend on what a host may do. -/
theorem At.free (A : At sc b L Q s) : At sc.free b L Q s where
  sound := ⟨A.sound.balanced, A.sound.files, A.sound.within.pending, A.sound.within.callbacks,
    fun _ _ {_} _ _ => trivial⟩
  freeing := A.freeing
  collecting := A.collecting

theorem At.collecting_eq {c : Collector} (A : At sc b L Q s) (hc : s.memory.collector = some c) :
    c.collecting = b := by
  have := A.collecting
  rwa [Memory.isCollecting, hc, Option.any_some] at this

/-- Where an operation of a hook is performed: at a sound moment, by the hooks that are due then. -/
structure Scene (sc : Scope) (b : Bool) (n : Nat) (owner : ObjectId) (op : Op) (L : Loose)
    (Q : ObjectId → Prop) (s : Machine) : Prop where
  there : At sc b L Q s
  budget : s.memory.heap.unspent sc ≤ n
  spent : s.memory.heap.isSpent owner = true
  allowed : sc.allows op
  passes : b = false → sc.passes

end Machine

open Machine

/-- An operation of a hook that has been performed, with its memory before and after. -/
def Op.Origin (b : Bool) (op : Op) (before : Memory) (outcome : Except Fault Answer)
    (after : Memory) : Prop :=
  ∃ sc n self L Q s s', Scene sc b n self op L Q s ∧ s.memory = before ∧ s'.memory = after ∧
    Act.attempt (Host.perform (.within b n) self op) s = .ok outcome s'

/-- A moment at which no callback is told anything. A pass is running or not, and the books are
those given. -/
structure Moment.Plain (sc : Scope) (b : Bool) (books : Option Books) (m : Moment) : Prop where
  untold : ∀ {index phase info}, m.event ≠ .calledBack index phase info
  collecting : m.memory.isCollecting = b
  books : m.memory.books? = books
  /-- If no finalizer can be installed, none is left to run on what is freed. -/
  unpending : sc.Fixed → ∀ {x}, m.event = .freeing x → m.memory.heap.pending? x = none
  origin : ∀ {op before outcome}, m.event = .performed op before outcome →
    op.Origin b before outcome m.memory

namespace Machine

/-- The callbacks that are registered now. -/
def callbacks (s : Machine) : List Callback := s.memory.collector.elim [] (·.callbacks)

theorem callbacks_of_collector {c : Collector} (hc : s.memory.collector = some c) :
    s.callbacks = c.callbacks := by
  rw [callbacks, hc, Option.elim_some]

theorem callbacks_of_map {f : Collector → Collector}
    (collector : s'.memory.collector = s.memory.collector.map f)
    (same : ∀ c, (f c).callbacks = c.callbacks) : s'.callbacks = s.callbacks := by
  unfold callbacks
  rw [collector]
  cases s.memory.collector with
  | none => rfl
  | some c => exact same c

theorem callbacks_mapCollector {f : Collector → Collector}
    (same : ∀ c, (f c).callbacks = c.callbacks) : (s.mapCollector f).callbacks = s.callbacks :=
  callbacks_of_map rfl same

/-- Callbacks are numbered in the order of their registration. -/
structure Numbered (s : Machine) : Prop where
  ascending : (s.callbacks.map (·.index)).Pairwise (· < ·)
  registered : ∀ cb ∈ s.callbacks, cb.index < s.registered

/-- What later machines of a run take over from earlier ones. -/
structure Follows (sc : Scope) (s s' : Machine) : Prop where
  registered : s.registered ≤ s'.registered
  /-- A callback that is cleared does not come back. -/
  callbacks : ∀ cb ∈ s'.callbacks, cb ∈ s.callbacks ∨ s.registered ≤ cb.index
  numbered : s.Numbered → s'.Numbered
  unpending : sc.Fixed → ∀ {x}, s.memory.heap.pending? x = none →
    s'.memory.heap.pending? x = none
  policy : sc.Steady → s'.memory.policy? = s.memory.policy?

theorem Follows.refl (s : Machine) : Follows sc s s where
  registered := Nat.le_refl _
  callbacks _ := .inl
  numbered := id
  unpending _ _ := id
  policy _ := rfl

theorem Follows.trans (one : Follows sc s s') (two : Follows sc s' s'') : Follows sc s s'' where
  registered := Nat.le_trans one.registered two.registered
  callbacks cb mem := by
    rcases two.callbacks cb mem with old | new
    · exact one.callbacks cb old
    · exact .inr (Nat.le_trans one.registered new)
  numbered := two.numbered ∘ one.numbered
  unpending fixed _ := two.unpending fixed ∘ one.unpending fixed
  policy steady := (two.policy steady).trans (one.policy steady)

/-- A change of the collector that registers no callback. -/
theorem Follows.of_collector {f : Collector → Collector} (registered : s'.registered = s.registered)
    (collector : s'.memory.collector = s.memory.collector.map f)
    (callbacks : ∀ c, s.memory.collector = some c → (f c).callbacks.Sublist c.callbacks)
    (policy : sc.Steady → ∀ c, s.memory.collector = some c → (f c).policy = c.policy)
    (unpending : sc.Fixed → ∀ {x}, s.memory.heap.pending? x = none →
      s'.memory.heap.pending? x = none) : Follows sc s s' := by
  have sub : s'.callbacks.Sublist s.callbacks := by
    unfold Machine.callbacks
    rw [collector]
    cases hc : s.memory.collector with
    | none => exact List.Sublist.refl _
    | some c => exact callbacks c hc
  refine ⟨Nat.le_of_eq registered.symm, fun cb mem => .inl (sub.subset mem),
    fun N => ⟨N.ascending.sublist (sub.map _), fun cb mem => ?_⟩, unpending, fun steady => ?_⟩
  · rw [registered]
    exact N.registered cb (sub.subset mem)
  · unfold Memory.policy?
    rw [collector]
    cases hc : s.memory.collector with
    | none => rfl
    | some c => exact congrArg some (policy steady c hc)

/-- A change of the heap alone. -/
theorem Follows.of_heap (registered : s'.registered = s.registered)
    (collector : s'.memory.collector = s.memory.collector)
    (unpending : sc.Fixed → ∀ {x}, s.memory.heap.pending? x = none →
      s'.memory.heap.pending? x = none) : Follows sc s s' := by
  refine .of_collector (f := id) registered ?_ (fun _ _ => .refl _) (fun _ _ _ => rfl) unpending
  rw [collector, Option.map_id_fun, id]

theorem Follows.lift (follows : Follows sc.calm s s') : Follows sc s s' where
  registered := follows.registered
  callbacks := follows.callbacks
  numbered := follows.numbered
  unpending := follows.unpending
  policy := follows.policy

/-- No pass begins or ends between two machines. -/
structure Discreet (sc : Scope) (b : Bool) (s s' : Machine) : Prop extends Follows sc s s' where
  journal : ∃ ms, s'.journal = ms ++ s.journal ∧ ∀ m ∈ ms, m.Plain sc b s.memory.books?
  books : s'.memory.books? = s.memory.books?

theorem Follows.quiet (follows : Follows sc s s') (journal : s'.journal = s.journal)
    (books : s'.memory.books? = s.memory.books?) : Discreet sc b s s' :=
  ⟨follows, ⟨[], journal, fun _ mem => absurd mem List.not_mem_nil⟩, books⟩

theorem Follows.logs (follows : Follows sc s s') {m : Moment}
    (journal : s'.journal = m :: s.journal) (books : s'.memory.books? = s.memory.books?)
    (plain : m.Plain sc b s.memory.books?) :
    Discreet sc b s s' := by
  refine ⟨follows, ⟨[m], journal, fun m' mem => ?_⟩, books⟩
  rw [List.mem_singleton.mp mem]
  exact plain

theorem Discreet.refl (s : Machine) : Discreet sc b s s := (Follows.refl s).quiet rfl rfl

theorem Discreet.trans (one : Discreet sc b s s') (two : Discreet sc b s' s'') :
    Discreet sc b s s'' := by
  obtain ⟨ms, hms, plain⟩ := one.journal
  obtain ⟨ms', hms', plain'⟩ := two.journal
  refine ⟨one.toFollows.trans two.toFollows, ⟨ms' ++ ms, ?_, fun m mem => ?_⟩,
    two.books.trans one.books⟩
  · rw [hms', hms, List.append_assoc]
  · rcases List.mem_append.mp mem with mem | mem
    · exact one.books ▸ plain' m mem
    · exact plain m mem

theorem Discreet.lift (discreet : Discreet sc.calm b s s') : Discreet sc b s s' := by
  obtain ⟨ms, hms, plain⟩ := discreet.journal
  refine ⟨discreet.toFollows.lift, ⟨ms, hms, fun m mem => ?_⟩, discreet.books⟩
  obtain ⟨untold, collecting, books, unpending, origin⟩ := plain m mem
  exact ⟨untold, collecting, books, unpending, origin⟩

/-! ## Passes -/

/-- Some callbacks are told about one end of a pass, one after the other. -/
inductive Round (sc : Scope) (phase : Phase) (info : PassInfo) :
    List Callback → Machine → Machine → Prop where
  | nil {s : Machine} : Round sc phase info [] s s
  | cons {cb : Callback} {cbs : List Callback} {s s' s'' : Machine} : s.memory.isCollecting = true →
      Discreet sc true (s.log (.calledBack cb.index phase info)) s' →
      Round sc phase info cbs s' s'' → Round sc phase info (cb :: cbs) s s''

/-- What a pass over a generation tells callbacks between its being marked as running and that mark
being cleared: its start to those registered at the start, and its outcome to those registered when
the outcome is entered into the books. -/
inductive Told (sc : Scope) (g : Generation) : Machine → Machine → Prop where
  | intro {s s₁ s₂ s₃ s₄ : Machine} {c : Collector} {saves : Bool} {r : CycleReport} :
      Round sc .start ⟨g, 0, 0⟩ s.callbacks s s₁ → Discreet sc true s₁ s₂ →
      s₂.memory.collector = some c →
      Discreet sc true (s₂.withMemory (s₂.memory.book c g saves r)) s₃ →
      Round sc .stop ⟨g, r.collected.length, r.resurrected.length⟩ s₃.callbacks s₃ s₄ →
      Told sc g s s₄

/-- A whole pass. -/
def Passes (sc : Scope) (s s' : Machine) : Prop :=
  ∃ g t, Told sc g (s.mapCollector ({ · with collecting := true })) t ∧
    s' = t.mapCollector ({ · with collecting := false })

/-- What happens between two machines. Inside of a pass no other one starts; outside of passes there
may be whole ones. -/
def Conduct (sc : Scope) : Bool → Machine → Machine → Prop
  | true => Discreet sc true
  | false => Relation.ReflTransGen fun s s' => Discreet sc false s s' ∨ Passes sc s s'

theorem Discreet.conduct (discreet : Discreet sc b s s') : Conduct sc b s s' := by
  cases b with
  | true => exact discreet
  | false => exact .single (.inl discreet)

theorem Passes.conduct (passes : Passes sc s s') : Conduct sc false s s' := .single (.inr passes)

theorem Conduct.refl (s : Machine) : Conduct sc b s s := (Discreet.refl s).conduct

theorem Conduct.trans (one : Conduct sc b s s') (two : Conduct sc b s' s'') :
    Conduct sc b s s'' := by
  cases b with
  | true => exact Discreet.trans one two
  | false => exact Relation.ReflTransGen.trans one two

theorem follows_mark (s : Machine) (value : Bool) :
    Follows sc s (s.mapCollector ({ · with collecting := value })) :=
  .of_collector rfl rfl (fun _ _ => .refl _) (fun _ _ _ => rfl) fun _ _ => id

theorem follows_log (s : Machine) (event : Event) : Follows sc s (s.log event) :=
  .of_heap rfl rfl fun _ _ => id

/-- Booking changes neither callbacks nor finalizers nor the policy. -/
theorem follows_book (s : Machine) (c : Collector) (g : Generation) (saves : Bool)
    (r : CycleReport) : Follows sc s (s.withMemory (s.memory.book c g saves r)) := by
  refine .of_collector rfl rfl (fun c' _ => ?_) (fun _ c' _ => ?_) fun _ {x} none => ?_
  · cases saves <;> exact .refl _
  · cases saves <;> rfl
  · rw [← none]
    apply Heap.pending?_of_map
    exact Memory.map_get?_book (fun _ _ => rfl) _ _ g saves r _

theorem Round.follows {phase : Phase} {info : PassInfo} {cbs : List Callback}
    (round : Round sc phase info cbs s s') : Follows sc s s' := by
  induction round with
  | nil => exact .refl _
  | cons _ discreet _ ih => exact (follows_log _ _).trans (discreet.toFollows.trans ih)

theorem Told.follows {g : Generation} (told : Told sc g s s') : Follows sc s s' := by
  obtain ⟨start, before, -, after, stop⟩ := told
  exact start.follows.trans (before.toFollows.trans ((follows_book _ _ _ _ _).trans
    (after.toFollows.trans stop.follows)))

theorem Passes.follows (passes : Passes sc s s') : Follows sc s s' := by
  obtain ⟨g, t, told, rfl⟩ := passes
  exact (follows_mark s true).trans (told.follows.trans (follows_mark t false))

theorem Conduct.follows (conduct : Conduct sc b s s') : Follows sc s s' := by
  cases b with
  | true => exact Discreet.toFollows conduct
  | false =>
    induction conduct with
    | refl => exact .refl s
    | tail _ last ih => exact ih.trans (last.elim Discreet.toFollows Passes.follows)

/-! ## The journal -/

/-- Every moment that has been added to the journal is a plain one, or a callback is told something
then by a pass that is running. -/
def Adds (sc : Scope) (s s' : Machine) : Prop :=
  ∃ ms, s'.journal = ms ++ s.journal ∧ ∀ m ∈ ms, (∃ b books, m.Plain sc b books) ∨
    (∃ index phase info, m.event = .calledBack index phase info) ∧ m.memory.isCollecting = true

theorem Adds.of_eq (same : s'.journal = s.journal) : Adds sc s s' :=
  ⟨[], same, fun _ mem => absurd mem List.not_mem_nil⟩

theorem Adds.trans (one : Adds sc s s') (two : Adds sc s' s'') : Adds sc s s'' := by
  obtain ⟨ms, hms, all⟩ := one
  obtain ⟨ms', hms', all'⟩ := two
  refine ⟨ms' ++ ms, ?_, fun m mem => ?_⟩
  · rw [hms', hms, List.append_assoc]
  · exact (List.mem_append.mp mem).elim (all' m) (all m)

theorem Discreet.adds (discreet : Discreet sc b s s') : Adds sc s s' := by
  obtain ⟨ms, hms, plain⟩ := discreet.journal
  exact ⟨ms, hms, fun m mem => .inl ⟨b, _, plain m mem⟩⟩

theorem Round.adds {phase : Phase} {info : PassInfo} {cbs : List Callback}
    (round : Round sc phase info cbs s s') : Adds sc s s' := by
  induction round with
  | nil => exact .of_eq rfl
  | @cons cb cbs s s' s'' collecting discreet _ ih =>
    refine Adds.trans ⟨[_], rfl, fun m mem => .inr ?_⟩ (discreet.adds.trans ih)
    rw [List.mem_singleton.mp mem]
    exact ⟨⟨cb.index, phase, info, rfl⟩, collecting⟩

theorem Passes.adds (passes : Passes sc s s') : Adds sc s s' := by
  obtain ⟨g, t, told, rfl⟩ := passes
  obtain ⟨start, before, -, after, stop⟩ := told
  exact Adds.trans start.adds (before.adds.trans (Adds.trans after.adds stop.adds))

theorem Conduct.adds (conduct : Conduct sc b s s') : Adds sc s s' := by
  cases b with
  | true => exact Discreet.adds conduct
  | false =>
    induction conduct with
    | refl => exact .of_eq rfl
    | tail _ last ih => exact ih.trans (last.elim Discreet.adds Passes.adds)

end Machine

end Reclaim
