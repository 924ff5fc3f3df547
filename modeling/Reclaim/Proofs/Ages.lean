import Reclaim.Proofs.FullCollection

/-!
# Buckets and ages along a run

A collector that was there before the first object knows all containers, each under its own age.
This holds between operations and at every moment of their journals, so on every entry into a
finalizer or a callback; and along these moments no container grows younger
(`Machine.Tended.partition`).

Only containers grow older; atoms keep their age (`Machine.Attained.agelessAtoms`).

A step keeps the books of the collector (`Machine.Step.files`, `Machine.Step.filesAll`) and lets
objects grow older only (`Machine.Step.later`). `Machine.Chronicle` carries that over to the
journal, to which a step adds what memory is before or after it, and `Machine.timeline_chronicle`
to the memories of a whole run.
-/

set_option autoImplicit false

namespace Reclaim

open Machine

variable {sc : Scope} {L L' : Loose} {s s' : Machine} {op : Op}

/-- The buckets of the collector partition the live containers by age. -/
structure Memory.Partitioned (m : Memory) : Prop where
  disjoint : ∀ c, m.collector = some c → ∀ i j : Generation, i ≠ j →
    ∀ x, x ∈ c.tracker.bucket i → x ∉ c.tracker.bucket j
  mem_iff : ∀ c, m.collector = some c → ∀ (g : Generation) (x : ObjectId),
    x ∈ c.tracker.bucket g ↔
      ∃ o, m.heap.get? x = some o ∧ o.kind = .container ∧ o.generation = g.val
  /-- There is a bucket for the age of every container. -/
  covered : ∀ c, m.collector = some c → ∀ x o, m.heap.get? x = some o → o.kind = .container →
    ∃ g : Generation, x ∈ c.tracker.bucket g

/-- What is filed by age, and completely, is partitioned. -/
theorem Memory.partitioned_of_files {m : Memory}
    (files : ∀ {c}, m.collector = some c → c.tracker.Files m.heap) (filesAll : m.FilesAll) :
    m.Partitioned where
  disjoint c hc i j ne x hi hj := ne ((files hc).unique hi hj)
  mem_iff c hc g x := by
    constructor
    · intro filed
      exact (files hc).exists_container filed
    · rintro ⟨o, ho, kind, age⟩
      rw [(files hc).mem_bucket_iff (filesAll hc), Heap.filing, ho, Option.map_some, kind, age]
  covered c hc x o ho kind := by
    have filing : m.heap.filing x = some (.container, o.generation) := by
      rw [Heap.filing, ho, Option.map_some, kind]
    obtain ⟨g, -, filed⟩ := filesAll hc x o.generation filing
    exact ⟨g, filed⟩

/-- Containers that live on have not grown younger. -/
def Memory.Ages (m m' : Memory) : Prop :=
  ∀ x o p, m.heap.get? x = some o → m'.heap.get? x = some p → o.kind = .container →
    o.generation ≤ p.generation

theorem Heap.Later.ages {m m' : Memory} (later : m.heap.Later m'.heap) (keyed : m.heap.Keyed) :
    m.Ages m' := by
  intro x o p ho hp _
  obtain ⟨o', ho', -, age, -⟩ := later.old (keyed.keyed ho).2.2 hp
  rw [ho, Option.some.injEq] at ho'
  exact ho' ▸ age

/-! ## Atoms -/

/-- Atoms have the age that they were allocated with. -/
def Heap.AgelessAtoms (h : Heap) : Prop :=
  ∀ x o, h.get? x = some o → o.kind = .atom → o.generation = 0

namespace Machine

/-- Only containers grow older. -/
theorem Step.agelessAtoms (step : Step sc (L, s) (L', s')) (Y : s.memory.heap.AgelessAtoms) :
    s'.memory.heap.AgelessAtoms := by
  cases step with
  | aside memory _ _ =>
    rw [memory]
    exact Y
  | note _ | collecting _ | configure _ _ _ | disown _ => exact Y
  | edit edit =>
    intro x p hp atom
    obtain ⟨o, ho, same⟩ := edit.exists_old hp
    have kind : o.kind = p.kind := congrArg (·.1) same
    have age : o.generation = p.generation := congrArg (·.2.1) same
    exact age ▸ Y x o ho (kind.trans atom)
  | finalize hx _ =>
    intro x p hp atom
    rw [log_memory, withHeap_heap, Heap.get?_put] at hp
    split at hp
    · cases hp
      have young := Y _ _ hx atom
      exact young
    · exact Y x p hp atom
  | destroy hx _ _ _ run =>
    intro x p hp atom
    rw [Memory.exists_of_destroy hx run, withMemory_memory, Heap.get?_erase] at hp
    split at hp
    · cases hp
    · exact Y x p hp atom
  | book g saves r _ _ _ survivors =>
    intro x p hp atom
    rw [withMemory_memory, Memory.get?_book, Option.map_eq_some_iff] at hp
    obtain ⟨o, ho, rfl⟩ := hp
    -- survivors are containers
    split at atom
    · next survives =>
      obtain ⟨o', ho', container, -⟩ := survivors x survives
      cases ho.symm.trans ho'
      cases container.symm.trans atom
    · next other =>
      rw [if_neg other]
      exact Y x o ho atom
  | allocate kind typeName _ =>
    intro x p hp atom
    rw [Memory.allocate_eq, withMemory_memory, Heap.get?_allocate] at hp
    split at hp
    · cases hp
      rfl
    · exact Y x p hp atom

theorem Steps.agelessAtoms {a b : Loose × Machine} (steps : Steps sc a b)
    (Y : a.2.memory.heap.AgelessAtoms) : b.2.memory.heap.AgelessAtoms := by
  induction steps with
  | refl => exact Y
  | tail _ step ih => exact step.agelessAtoms ih

theorem Attained.agelessAtoms (run : Attained s) : s.memory.heap.AgelessAtoms := by
  induction run with
  | start settings? run =>
    obtain ⟨collector, rfl, -⟩ := exists_of_start run
    intro x o hx
    cases (Heap.get?_empty x).symm.trans hx
  | perform before host ih =>
    rcases perform_cases host with host | ⟨collector, -, e⟩
    · exact Steps.agelessAtoms (perform_leads_scope before.settled host).steps ih
    · rw [e]
      exact ih

/-! ## Within an operation -/

/-- What the journal of an operation that began with the heap `h` tells: memory has a property at
every moment, and later moments, the last of which is the present one, have later heaps. -/
structure Chronicle (P : Memory → Prop) (h : Heap) (s : Machine) : Prop where
  holds : ∀ m ∈ s.journal, P m.memory
  ordered : s.journal.Pairwise fun m m' => m'.memory.heap.Later m.memory.heap
  since : ∀ m ∈ s.journal, h.Later m.memory.heap
  before : ∀ m ∈ s.journal, m.memory.heap.Later s.memory.heap
  later : h.Later s.memory.heap

variable {P : Memory → Prop}

/-- An operation that has noted nothing yet. -/
theorem Chronicle.of_nil {h : Heap} (none : s.journal = []) (later : h.Later s.memory.heap) :
    Chronicle P h s := by
  refine ⟨?_, ?_, ?_, ?_, later⟩ <;> rw [none]
  · exact fun _ => nofun
  · exact List.Pairwise.nil
  · exact fun _ => nofun
  · exact fun _ => nofun

/-- A step continues the chronicle. -/
theorem Step.chronicle {h : Heap} (step : Step sc (L, s) (L', s')) (here : P s.memory)
    (there : P s'.memory) (C : Chronicle P h s) : Chronicle P h s' := by
  have later := step.later
  obtain same | ⟨event, m, more, now⟩ := step.journal_cases
  · refine ⟨?_, ?_, ?_, ?_, C.later.trans later⟩
    · exact same ▸ C.holds
    · exact same ▸ C.ordered
    · exact same ▸ C.since
    · rw [same]
      exact fun m mem => (C.before m mem).trans later
  -- the new moment lies between the heaps before and after the step
  · have good : P m := by
      rcases now with rfl | rfl
      · exact here
      · exact there
    have from_s : s.memory.heap.Later m.heap := by
      rcases now with rfl | rfl
      · exact .refl _
      · exact later
    have to_s' : m.heap.Later s'.memory.heap := by
      rcases now with rfl | rfl
      · exact later
      · exact .refl _
    constructor
    · rw [more]
      exact List.forall_mem_cons.mpr ⟨good, C.holds⟩
    · rw [more]
      exact List.pairwise_cons.mpr ⟨fun m' mem => (C.before m' mem).trans from_s, C.ordered⟩
    · rw [more]
      exact List.forall_mem_cons.mpr ⟨C.later.trans from_s, C.since⟩
    · rw [more]
      exact List.forall_mem_cons.mpr ⟨to_s', fun m' mem => (C.before m' mem).trans later⟩
    · exact C.later.trans later

theorem Steps.chronicle {a b : Loose × Machine} {h : Heap} (steps : Steps sc a b)
    (always : ∀ c, Steps sc a c → P c.2.memory) (C : Chronicle P h a.2) : Chronicle P h b.2 := by
  induction steps with
  | refl => exact C
  | tail steps step ih => exact step.chronicle (always _ steps) (always _ (steps.tail step)) ih

/-- An operation of a host has a chronicle of what holds along its steps. -/
theorem perform_chronicle (S : s.memory.Settled) (host : op.isHostOp = true)
    (always : ∀ c, Steps (s.memory.scope op) (Loose.none, s.forget) c →
      c.2.memory.Sound (s.memory.scope op) c.1 → P c.2.memory) :
    Chronicle P s.memory.heap (s.perform op).2 := by
  have sound := (S.begun op).sound
  exact Steps.chronicle (perform_leads_scope S host).steps
    (fun c steps => always c steps (Steps.sound steps sound)) (.of_nil rfl (.refl _))

/-- An operation of a host keeps a complete file complete. -/
theorem perform_filesAll (S : s.memory.Settled) (F : s.memory.FilesAll)
    (host : op.isHostOp = true) : (s.perform op).2.memory.FilesAll :=
  Steps.filesAll (perform_leads_scope S host).steps (S.begun op).sound F

/-! ## Along a run -/

/-- A machine whose heap is given a collector while it is empty, and which then performs operations
of a host. -/
abbrev Tended : Machine → Prop := Supervised Op.isHostOp

/-- What memory is in the course of a run: before each operation, at every moment of its journal,
and at the end. -/
def timeline (s : Machine) : List Op → List Memory
  | [] => [s.memory]
  | op :: rest => s.memory :: ((s.perform op).1.moments.map (·.memory) ++
      (s.perform op).2.timeline rest)

theorem Watched.tended (run : Watched s) : Tended s :=
  run.mono fun {op} plain => by
    cases op <;> first | rfl | cases plain

theorem Tended.attained (run : Tended s) : Attained s :=
  Supervised.attained run Op.isOutsideOp_of_isHostOp

theorem Tended.settled (run : Tended s) : s.memory.Settled ∧ s.memory.FilesAll := by
  induction run with
  | start settings run =>
    have W := Watched.memory (.start settings run)
    exact ⟨W.settled, W.filesAll⟩
  | attach settings run empty =>
    have W := Watched.memory (.attach settings run empty)
    exact ⟨W.settled, W.filesAll⟩
  | perform _ host ih => exact ⟨perform_settled ih.1 host, perform_filesAll ih.1 ih.2 host⟩

/-- If every operation has a chronicle of some property of memory, the memories of a run have that
property, and each has a later heap than those before. -/
theorem timeline_chronicle {J : Machine → Prop} {allowed : Op → Bool}
    (here : ∀ {s}, J s → P s.memory)
    (chronicle : ∀ {s op}, J s → allowed op = true →
      J (s.perform op).2 ∧ Chronicle P s.memory.heap (s.perform op).2)
    (run : J s) {ops : List Op} (host : ops.all allowed = true) :
    (∀ m ∈ s.timeline ops, P m ∧ s.memory.heap.Later m.heap) ∧
      (s.timeline ops).Pairwise fun m m' => m.heap.Later m'.heap := by
  induction ops generalizing s with
  | nil =>
    refine ⟨fun m mem => ?_, List.pairwise_singleton _ _⟩
    rw [timeline, List.mem_singleton] at mem
    subst mem
    exact ⟨here run, .refl _⟩
  | cons op ops ih =>
    rw [List.all_cons, Bool.and_eq_true] at host
    obtain ⟨run', C⟩ := chronicle run host.1
    obtain ⟨rest, ordered⟩ := ih run' host.2
    have moment {m : Memory} (mem : m ∈ (s.perform op).1.moments.map (·.memory)) :
        ∃ moment ∈ (s.perform op).2.journal, moment.memory = m := by
      rw [List.mem_map, moments_eq] at mem
      obtain ⟨moment, mem, e⟩ := mem
      exact ⟨moment, List.mem_reverse.mp mem, e⟩
    have after (m : Memory) (mem : m ∈ (s.perform op).1.moments.map (·.memory) ++
        (s.perform op).2.timeline ops) : P m ∧ s.memory.heap.Later m.heap := by
      rcases List.mem_append.mp mem with mem | mem
      · obtain ⟨at_m, told, rfl⟩ := moment mem
        exact ⟨C.holds at_m told, C.since at_m told⟩
      · obtain ⟨holds, later⟩ := rest m mem
        exact ⟨holds, C.later.trans later⟩
    refine ⟨List.forall_mem_cons.mpr ⟨⟨here run, .refl _⟩, after⟩,
      List.pairwise_cons.mpr ⟨fun m mem => (after m mem).2, List.pairwise_append.mpr
        ⟨?_, ordered, fun m mem m' mem' => ?_⟩⟩⟩
    -- the journal has the last moment first
    · rw [List.pairwise_map, moments_eq, List.pairwise_reverse]
      exact C.ordered
    · obtain ⟨at_m, told, rfl⟩ := moment mem
      exact (C.before at_m told).trans (rest m' mem').2

/-- In the course of an operation of a host, memory that is completely filed is partitioned. -/
theorem perform_partitioned (S : s.memory.Settled) (F : s.memory.FilesAll)
    (host : op.isHostOp = true) :
    Chronicle (fun m => m.heap.Keyed ∧ m.Partitioned) s.memory.heap (s.perform op).2 :=
  perform_chronicle S host fun _ steps sound => ⟨sound.balanced.isKeyed,
    Memory.partitioned_of_files (sound.files trivial)
      (Steps.filesAll steps (S.begun op).sound F)⟩

/-- The buckets partition the live containers. In every run of a host, watched by a collector from
an empty heap on, a handle is in the bucket of a generation if and only if it is that of a live
container of that age, whenever an operation has come to its end and whenever a hook is entered; and
no container ever grows younger. -/
theorem Tended.partition (run : Tended s) {ops : List Op} (host : ops.all Op.isHostOp = true) :
    (∀ m ∈ s.timeline ops, m.Partitioned) ∧ (s.timeline ops).Pairwise Memory.Ages := by
  obtain ⟨all, ordered⟩ := timeline_chronicle (P := fun m => m.heap.Keyed ∧ m.Partitioned)
    (fun run => ⟨run.settled.1.balanced.isKeyed,
      Memory.partitioned_of_files run.settled.1.files run.settled.2⟩)
    (fun run host => ⟨run.perform host, perform_partitioned run.settled.1 run.settled.2 host⟩)
    run host
  exact ⟨fun m mem => (all m mem).1.2, ordered.imp_of_mem fun mem _ later =>
    later.ages (all _ mem).1.1⟩

/-- A container that refers to itself is let go of and collected beside another one. Its finalizer
allocates a third one. -/
def heirloom : List Op :=
  [.call (.allocate .container "node"), .call (.allocate .container "node"),
    .call (.addEdge (.id 2) (.id 2)),
    .setFinalizer (.id 2) [⟨.call (.allocate .container "node"), false⟩],
    .call (.release (.id 2)), .call (.collect 0)]

/-- The machine with a new collector. -/
def attended : Machine := (({} : Machine).perform (.raw (.attach {}))).2

/-- The heir is in the bucket of the youngest generation, and the survivor in the next one. -/
theorem partition_heirloom :
    (∀ m ∈ attended.timeline heirloom, m.Partitioned) ∧
      (attended.timeline heirloom).Pairwise Memory.Ages ∧
      (attended.performAll heirloom).2.memory.collector.map
        (·.tracker.buckets.toList.map (·.toList)) = some [[3], [1], []] :=
  have law := @Tended.partition attended (.attach {} (.start none rfl) Heap.get?_empty) heirloom rfl
  ⟨law.1, law.2, by decide +kernel⟩

end Machine

end Reclaim
