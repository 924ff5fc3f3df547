import Reclaim.Proofs.Nesting

/-!
# Runs of a host

A machine is attained if it is started and then performs operations of a well-behaved host, which
may also give its heap another collector or take it away. Memory is settled in every attained
machine (`Machine.Attained.settled`), no run is cut short (`Machine.Attained.starved`), and the
journal of every operation is fair (`Machine.Attained.moments_fair`): hooks are entered only when
every reference is counted, and what is freed is out of reach.
-/

set_option autoImplicit false

namespace Reclaim

open Machine

variable {sc : Scope} {L L' : Loose} {s s' : Machine} {x : ObjectId} {op : Op}

/-- What a host performs from outside: operations that leave reference counts to the heap, and
giving the heap a collector or taking it away. -/
def Op.isOutsideOp : Op → Bool
  | .raw (.attach _) => true
  | .raw .detach => true
  | op => op.isHostOp

theorem Op.isOutsideOp_of_isHostOp (host : op.isHostOp = true) : op.isOutsideOp = true := by
  cases op with
  | raw r => cases host
  | call _ | ask _ | setFinalizer _ _ | addCallback _ _ => exact host

/-- A hook is entered. -/
def Event.entersHook : Event → Bool
  | .finalizing _ => true
  | .calledBack .. => true
  | _ => false

/-- When a hook is entered every reference is counted, and an object that is freed is out of
reach. -/
structure Moment.Fair (m : Moment) : Prop where
  hook : m.event.entersHook = true → m.memory.heap.Covered
  freed : ∀ x, m.event = .freeing x →
    (∃ o, m.memory.heap.get? x = some o ∧ o.rootCount = 0) ∧ ¬ m.memory.heap.Reachable x

namespace Machine

/-! ## The journal -/

/-- The journal is continued and never rewritten, by fair moments. -/
theorem Step.fair (step : Step sc (L, s) (L', s')) (B : s.memory.heap.Balanced L)
    (fair : ∀ m ∈ s.journal, m.Fair) : ∀ m ∈ s'.journal, m.Fair := by
  cases step with
  | aside _ journal _ =>
    rw [journal]
    exact fair
  | edit _ | collecting _ | book _ _ _ _ _ _ _ | allocate _ _ _ | configure _ _ _ | disown _ =>
    exact fair
  | note _ =>
    intro m mem
    rcases List.mem_cons.mp mem with rfl | mem
    · exact ⟨fun _ => B.covered, fun x e => by cases e; contradiction⟩
    · exact fair m mem
  -- the moment is noted when the object has been marked and before its script runs
  | finalize hx _ =>
    intro m mem
    rcases List.mem_cons.mp mem with rfl | mem
    · exact ⟨fun _ => (B.markFinalized hx).covered, fun x e => by cases e⟩
    · exact fair m mem
  | destroy hx _ root unreferenced _ =>
    intro m mem
    rcases List.mem_cons.mp mem with rfl | mem
    · refine ⟨Bool.noConfusion, fun x e => ?_⟩
      cases e
      exact ⟨⟨_, hx, root⟩,
        Heap.not_reachable_of_unreferenced (Heap.not_rooted hx root) unreferenced⟩
    · exact fair m mem

/-- A step adds to the journal what memory is before it or after it, if it adds anything. -/
theorem Step.journal_cases (step : Step sc (L, s) (L', s')) : s'.journal = s.journal ∨
    ∃ event m, s'.journal = ⟨event, m⟩ :: s.journal ∧ (m = s.memory ∨ m = s'.memory) := by
  cases step with
  | aside _ journal _ => exact .inl journal
  | edit _ | collecting _ | book _ _ _ _ _ _ _ | allocate _ _ _ | configure _ _ _ | disown _ =>
    exact .inl rfl
  | note _ => exact .inr ⟨_, _, rfl, .inl rfl⟩
  | finalize _ _ => exact .inr ⟨_, _, rfl, .inr rfl⟩
  | destroy _ _ _ _ _ => exact .inr ⟨_, _, rfl, .inl rfl⟩

theorem Step.journal (step : Step sc (L, s) (L', s')) : s.journal ⊆ s'.journal := by
  rcases step.journal_cases with same | ⟨event, m, more, -⟩
  · rw [same]
    exact List.Subset.refl _
  · rw [more]
    exact List.subset_cons_self _ _

/-- An object does not go without a word in the journal. -/
theorem Step.freeing (step : Step sc (L, s) (L', s')) (old : x < s'.memory.heap.nextId)
    (dead : s'.memory.heap.get? x = none) :
    (x < s.memory.heap.nextId ∧ s.memory.heap.get? x = none) ∨
      ∃ m ∈ s'.journal, m.event = .freeing x := by
  cases step with
  | aside memory _ _ =>
    rw [memory] at old dead
    exact .inl ⟨old, dead⟩
  | note _ | collecting _ | configure _ _ _ | disown _ => exact .inl ⟨old, dead⟩
  | edit edit =>
    -- edits keep objects, whatever they change of them
    have fixed := edit.fixed x
    rw [withHeap_heap] at old dead
    rw [dead, Option.map_none, eq_comm, Option.map_eq_none_iff] at fixed
    exact .inl ⟨edit.nextId ▸ old, fixed⟩
  | finalize hx _ =>
    refine .inl ⟨old, ?_⟩
    rw [log_memory, withHeap_heap, Heap.get?_put] at dead
    split at dead
    · cases dead
    · exact dead
  | destroy hx _ _ _ run =>
    rw [Memory.exists_of_destroy hx run] at old dead
    rw [withMemory_memory, Heap.get?_erase] at dead
    split at dead
    · next e => exact .inr ⟨_, List.mem_cons_self, congrArg Event.freeing e⟩
    · exact .inl ⟨old, dead⟩
  | book g saves r _ _ _ _ =>
    rw [withMemory_memory, Memory.get?_book, Option.map_eq_none_iff] at dead
    exact .inl ⟨old, dead⟩
  | allocate kind typeName _ =>
    rw [Memory.allocate_eq] at old dead
    rw [withMemory_memory, Heap.get?_allocate] at dead
    split at dead
    · cases dead
    · next ne =>
      exact .inl ⟨Nat.lt_of_le_of_ne (Nat.le_of_lt_succ old) (Ne.symm ne), dead⟩

/-- Every moment of a run is fair. -/
theorem Steps.fair {a b : Loose × Machine} (steps : Steps sc a b) (S : a.2.memory.Sound sc a.1)
    (fair : ∀ m ∈ a.2.journal, m.Fair) : ∀ m ∈ b.2.journal, m.Fair := by
  induction steps with
  | refl => exact fair
  | tail steps step ih => exact step.fair (Steps.sound steps S).balanced ih

/-- The journal of a run names every object that is gone at its end but was there at its start, or
came into being meanwhile. -/
theorem Steps.freeing {a b : Loose × Machine} (steps : Steps sc a b)
    (old : x < b.2.memory.heap.nextId) (dead : b.2.memory.heap.get? x = none) :
    (x < a.2.memory.heap.nextId ∧ a.2.memory.heap.get? x = none) ∨
      ∃ m ∈ b.2.journal, m.event = .freeing x := by
  induction steps with
  | refl => exact .inl ⟨old, dead⟩
  | tail _ step ih =>
    rcases step.freeing old dead with ⟨old, dead⟩ | ⟨m, mem, e⟩
    · rcases ih old dead with before | ⟨m, mem, e⟩
      · exact .inl before
      · exact .inr ⟨m, step.journal mem, e⟩
    · exact .inr ⟨m, mem, e⟩

/-! ## Attained machines -/

/-- A machine that is started and then performs operations of a host from outside. -/
inductive Attained : Machine → Prop where
  | start (settings? : Option Settings) {s : Machine} :
      Machine.start settings? = .ok s → Attained s
  | perform {s : Machine} {op : Op} : Attained s → op.isOutsideOp = true → Attained (s.perform op).2

/-- A machine whose heap is given a collector while it is empty, and which then performs operations
that are permitted. -/
inductive Supervised (permits : Op → Bool) : Machine → Prop where
  | start (settings : Settings) {s : Machine} :
      Machine.start (some settings) = .ok s → Supervised permits s
  | attach {s : Machine} (settings : Settings) : Attained s →
      (∀ x, s.memory.heap.get? x = none) →
      Supervised permits (s.perform (.raw (.attach settings))).2
  | perform {s : Machine} {op : Op} : Supervised permits s → permits op = true →
      Supervised permits (s.perform op).2

namespace Supervised

variable {permits permits' : Op → Bool}

/-- More may be permitted. -/
theorem mono (run : Supervised permits s)
    (more : ∀ {op}, permits op = true → permits' op = true) : Supervised permits' s := by
  induction run with
  | start settings run => exact .start settings run
  | attach settings run empty => exact .attach settings run empty
  | perform _ permitted ih => exact ih.perform (more permitted)

theorem attained (run : Supervised permits s)
    (outside : ∀ {op}, permits op = true → op.isOutsideOp = true) : Attained s := by
  induction run with
  | start settings run => exact .start (some settings) run
  | attach settings run _ => exact run.perform rfl
  | perform _ permitted ih => exact ih.perform (outside permitted)

theorem performAll (run : Supervised permits s) {ops : List Op}
    (permitted : ops.all permits = true) : Supervised permits (s.performAll ops).2 := by
  induction ops generalizing s with
  | nil => exact run
  | cons op ops ih =>
    rw [List.all_cons, Bool.and_eq_true] at permitted
    exact ih (run.perform permitted.1) permitted.2

end Supervised

end Machine

theorem Heap.get?_empty (x : ObjectId) : ({} : Heap).get? x = none := Std.ExtTreeMap.getElem?_empty

theorem Heap.balanced_empty : ({} : Heap).Balanced Loose.none where
  count {x o} hx := by cases (get?_empty x).symm.trans hx
  loose_live _ := rfl
  closed {x o y} hx := by cases (get?_empty x).symm.trans hx
  atoms {x o} hx := by cases (get?_empty x).symm.trans hx
  idle {x o} hx := by cases (get?_empty x).symm.trans hx
  keyed {x o} hx := by cases (get?_empty x).symm.trans hx
  nextId_pos := Nat.one_pos

theorem Heap.accounts_empty : ({} : Heap).Accounts := rfl

/-- A collector starts with empty buckets, no callbacks and no pass. -/
theorem Collector.start_fresh {settings : Settings} {c : Collector}
    (run : Collector.start settings = .ok c) :
    (∀ g x, x ∉ c.tracker.bucket g) ∧ c.collecting = false ∧ c.callbacks = [] ∧
      c.debug = settings.debug := by
  obtain ⟨thresholds, -, run⟩ := Heap.exists_of_bind run
  cases run
  refine ⟨fun g x mem => ?_, rfl, rfl, rfl⟩
  simp [Tracker.bucket, Tracker.start, Vector.get] at mem

/-- Memory stays settled if its collector is replaced by a new one or taken away. -/
theorem Memory.Settled.replace {m : Memory} (S : m.Settled) {collector : Option Collector}
    (fresh : ∀ c, collector = some c → ∃ settings, Collector.start settings = .ok c) :
    ({ m with collector } : Memory).Settled where
  balanced := S.balanced
  freeing := S.freeing
  files {c} hc := by
    obtain ⟨settings, run⟩ := fresh c hc
    exact fun g x mem => absurd mem ((Collector.start_fresh run).1 g x)
  idle := by
    cases collector with
    | none => rfl
    | some c =>
      obtain ⟨settings, run⟩ := fresh c rfl
      exact (Collector.start_fresh run).2.1
  finalizers := S.finalizers
  callbacks {c cb} hc hcb := by
    obtain ⟨settings, run⟩ := fresh c hc
    rw [(Collector.start_fresh run).2.2.1] at hcb
    exact absurd hcb List.not_mem_nil

theorem Memory.settled_empty : ({} : Memory).Settled where
  balanced := Heap.balanced_empty
  freeing x o hx := by cases (Heap.get?_empty x).symm.trans hx
  files := nofun
  idle := rfl
  finalizers {x o script} hx := by cases (Heap.get?_empty x).symm.trans hx
  callbacks := nofun

namespace Machine

/-- Giving the heap a new collector, or none if its settings are refused, does nothing else. -/
theorem perform_attach (s : Machine) (settings : Settings) :
    ∃ collector, (∀ c, collector = some c → Collector.start settings = .ok c) ∧
      (s.perform (.raw (.attach settings))).2 =
        s.forget.withMemory { s.memory with collector } := by
  cases run : Collector.start settings with
  | error e =>
    have attached : Host.perform (s.hooksFor (.raw (.attach settings))) 0
        (.raw (.attach settings)) s.forget =
        .error e (s.forget.withMemory { s.memory with collector := none }) := by
      simp only [Host.perform, Host.raw, Host.attach, Act.bind_apply, Act.memory_apply,
        Act.setMemory_apply, run, Act.ofExcept_error]
      rfl
    exact ⟨none, nofun, congrArg Prod.snd (perform_of_error attached)⟩
  | ok c =>
    have attached : Host.perform (s.hooksFor (.raw (.attach settings))) 0
        (.raw (.attach settings)) s.forget =
        .ok .done (s.forget.withMemory { s.memory with collector := some c }) := by
      simp only [Host.perform, Host.raw, Host.attach, Act.bind_apply, Act.memory_apply,
        Act.setMemory_apply, run, Act.ofExcept_ok, Act.pure_apply]
      rfl
    refine ⟨some c, fun c' e => ?_, congrArg Prod.snd (perform_of_ok attached)⟩
    cases e
    rfl

theorem perform_detach (s : Machine) :
    (s.perform (.raw .detach)).2 = s.forget.withMemory { s.memory with collector := none } := rfl

/-- An operation from outside is one of a well-behaved host, or it replaces the collector. -/
theorem perform_cases (host : op.isOutsideOp = true) :
    op.isHostOp = true ∨ ∃ collector,
      (∀ c, collector = some c → ∃ settings, Collector.start settings = .ok c) ∧
      (s.perform op).2 = s.forget.withMemory { s.memory with collector } := by
  cases op with
  | raw r =>
    cases r with
    | attach settings =>
      obtain ⟨collector, fresh, e⟩ := perform_attach s settings
      exact .inr ⟨collector, fun c hc => ⟨settings, fresh c hc⟩, e⟩
    | detach => exact .inr ⟨none, nofun, perform_detach s⟩
    | _ => cases host
  | call _ | ask _ | setFinalizer _ _ | addCallback _ _ => exact .inl host

/-- A machine starts with an empty heap, and with a new collector if with any. -/
theorem exists_of_start {settings? : Option Settings} (run : Machine.start settings? = .ok s) :
    ∃ collector, s = { memory := { collector } } ∧
      ∀ c, collector = some c → ∃ settings, Collector.start settings = .ok c := by
  cases settings? with
  | none =>
    cases run
    exact ⟨none, rfl, nofun⟩
  | some settings =>
    obtain ⟨c, hc, run⟩ := Heap.exists_of_bind run
    cases run
    refine ⟨some c, rfl, fun c' e => ⟨settings, ?_⟩⟩
    cases e
    exact hc

theorem settled_of_start {settings? : Option Settings} (run : Machine.start settings? = .ok s) :
    s.memory.Settled := by
  obtain ⟨collector, rfl, fresh⟩ := exists_of_start run
  exact Memory.settled_empty.replace fresh

/-- Memory is settled between the operations of a run. -/
theorem Attained.settled (run : Attained s) : s.memory.Settled := by
  induction run with
  | start _ run => exact settled_of_start run
  | perform _ host ih =>
    rcases perform_cases host with host | ⟨collector, fresh, e⟩
    · exact perform_settled ih host
    · rw [e]
      exact ih.replace fresh

/-- Between the operations of a run, every handle that was given out is accounted for. -/
theorem Attained.accounts (run : Attained s) : s.memory.heap.Accounts := by
  induction run with
  | start settings? run =>
    obtain ⟨collector, rfl, -⟩ := exists_of_start run
    exact Heap.accounts_empty
  | perform before host ih =>
    rcases perform_cases host with host | ⟨collector, -, e⟩
    · exact perform_accounts before.settled host ih
    · rw [e]
      exact ih

/-- No run is cut short: the budgets of hooks that operations are given are never used up. -/
theorem Attained.starved (run : Attained s) : s.starved = false := by
  induction run with
  | start settings? run =>
    obtain ⟨collector, rfl, -⟩ := exists_of_start run
    rfl
  | perform before host ih =>
    rcases perform_cases host with host | ⟨collector, -, e⟩
    · exact (Steps.starved (perform_leads_scope before.settled host).steps).trans ih
    · rw [e]
      exact ih

theorem moments_eq (s : Machine) (op : Op) :
    (s.perform op).1.moments = (s.perform op).2.journal.reverse := by
  cases run : Host.perform (s.hooksFor op) 0 op s.forget with
  | ok a s' => rw [perform_of_ok run]
  | error e s' => rw [perform_of_error run]

theorem Attained.moments_fair (run : Attained s) (host : op.isOutsideOp = true) :
    ∀ m ∈ (s.perform op).1.moments, m.Fair := by
  intro m mem
  rw [moments_eq, List.mem_reverse] at mem
  rcases perform_cases host with host | ⟨collector, -, e⟩
  -- the journal is empty at the start of an operation
  · have settled := run.settled
    exact Steps.fair (perform_leads_scope settled host).steps (settled.begun op).sound
      (fun _ none => absurd none List.not_mem_nil) m mem
  · rw [e] at mem
    exact absurd mem List.not_mem_nil

/-- A law of an operation and of everything that hooks perform in its course. It speaks about the
hooks that are due and the machine that is found; for a step of a hook this is a machine with the
memory that was noted, on which the step has the outcome that was noted. -/
def Throughout (s : Machine) (op : Op) (law : Hooks → Machine → Prop) : Prop :=
  law (s.hooksFor op) s.forget ∧
    ∀ m ∈ (s.perform op).1.moments, ∀ step before outcome,
      m.event = .performed step before outcome →
      ∃ n self t t', t.memory = before ∧ t'.memory = m.memory ∧
        Act.attempt (Host.perform (.within before.isCollecting n) self step) t = .ok outcome t' ∧
        law (.within before.isCollecting n) t

/-- The hooks of an operation begin at a sound moment. -/
theorem Attained.begun (run : Attained s) (op : Op) :
    At (s.memory.scope op) false Loose.none (fun _ => False) s.forget :=
  run.settled.begun op

/-- What the journal of an operation holds is a plain moment, or a callback is told something by a
pass that is running. -/
theorem Attained.adds (run : Attained s) (host : op.isOutsideOp = true) :
    ∀ m ∈ (s.perform op).1.moments,
      (∃ b books, m.Plain (s.memory.scope op) b books) ∨
        (∃ index phase info, m.event = .calledBack index phase info) ∧
          m.memory.isCollecting = true := by
  intro m mem
  rw [moments_eq, List.mem_reverse] at mem
  rcases perform_cases host with host | ⟨collector, -, e⟩
  · obtain ⟨ms, hms, all⟩ := (perform_leads_scope run.settled host).conduct.adds
    rw [hms, List.mem_append] at mem
    exact mem.elim (all m) fun none => absurd none List.not_mem_nil
  · rw [e] at mem
    exact absurd mem List.not_mem_nil

/-- A law that holds at every sound moment holds throughout every operation. -/
theorem Attained.throughout (run : Attained s) (host : op.isOutsideOp = true)
    {law : Hooks → Machine → Prop}
    (lawful : ∀ {sc b n L Q t}, sc.Active → (b = false → sc.passes) → At sc b L Q t →
      t.memory.heap.unspent sc ≤ n → law (.within b n) t) : s.Throughout op law := by
  have active : (s.memory.scope op).Active := fun _ => trivial
  refine ⟨lawful active (fun _ => trivial) (run.begun op) (s.memory.unspent_le_budget op), ?_⟩
  intro m mem step before outcome e
  rcases run.adds host m mem with ⟨b, books, plain⟩ | ⟨⟨index, phase, info, e'⟩, -⟩
  · obtain ⟨sc, n, self, L, Q, t, t', scene, rfl, after, performed⟩ := plain.origin e
    rw [scene.there.collecting]
    exact ⟨n, self, t, t', rfl, after, performed,
      @lawful sc.free b n L Q t (fun _ => trivial) scene.passes scene.there.free scene.budget⟩
  · rw [e] at e'
    cases e'

/-- Every object that is gone after an operation has a moment at which it was freed. -/
theorem Attained.moments_freeing (run : Attained s) (host : op.isOutsideOp = true)
    (old : x < (s.perform op).2.memory.heap.nextId)
    (dead : (s.perform op).2.memory.heap.get? x = none) :
    (x < s.memory.heap.nextId ∧ s.memory.heap.get? x = none) ∨
      ∃ m ∈ (s.perform op).1.moments, m.event = .freeing x := by
  rcases perform_cases host with host | ⟨collector, -, e⟩
  · rcases Steps.freeing (perform_leads_scope run.settled host).steps old dead with
      before | ⟨m, mem, freed⟩
    · exact .inl before
    · exact .inr ⟨m, by rwa [moments_eq, List.mem_reverse], freed⟩
  · rw [e] at old dead
    exact .inl ⟨old, dead⟩

end Machine

end Reclaim
