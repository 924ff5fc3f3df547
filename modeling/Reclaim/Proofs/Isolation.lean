import Reclaim.Proofs.Annals

/-!
# Sequences over tracked containers

A host that asks for the tracked containers is given a sequence over those of that moment. What it
takes from the sequence later, between any operations or inside of hooks, comes from these
containers alone, in ascending order, and leaves out only what has died
(`Machine.Attained.snapshot_isolated`).

A call on a sequence takes a part from its front and yields what is live of that part
(`Moment.Turns.exists_passed`). Since handles are filed once and in ascending order, and what is
dead stays dead, this determines what is yielded in the long run.
-/

set_option autoImplicit false

namespace Reclaim

variable {slot : Nat} {q q' : Snapshot} {h : Heap} {x y : ObjectId} {m : Moment} {ms : List Moment}

/-! ## One call -/

theorem Heap.contains_eq_false_iff : h.contains x = false ↔ h.get? x = none := by
  unfold contains
  rw [Option.isSome_eq_false_iff, Option.isNone_iff_eq_none]

namespace Snapshot

/-- A handle at the front is the next one if it is live, and is passed over otherwise. -/
theorem next_cons (size : Nat) (x : ObjectId) (rest : List ObjectId) (h : Heap) :
    next ⟨size, x :: rest⟩ h =
      if h.contains x = true then (some x, ⟨size, rest⟩) else next ⟨size, rest⟩ h := by
  unfold next
  rw [List.dropWhile_cons]
  cases h.contains x <;> rfl

/-- The next handle is the live one of the part that is passed. -/
theorem next_passed (q : Snapshot) (h : Heap) :
    ∃ passed, q.rest = passed ++ (q.next h).2.rest ∧
      (q.next h).1.toList = passed.filter (h.contains ·) := by
  obtain ⟨size, rest⟩ := q
  induction rest with
  | nil => exact ⟨[], rfl, rfl⟩
  | cons x rest ih =>
    rw [next_cons]
    split
    · next live =>
      refine ⟨[x], rfl, ?_⟩
      rw [List.filter_cons_of_pos live]
      rfl
    · next dead =>
      obtain ⟨passed, left, answer⟩ := ih
      exact ⟨x :: passed, congrArg (List.cons x) left,
        answer.trans (List.filter_cons_of_neg dead).symm⟩

theorem rest_of_next_none (none : (q.next h).1 = none) : (q.next h).2.rest = [] := by
  unfold next at none ⊢
  split at none
  · rfl
  · cases none

theorem next_of_rest_nil (nil : q.rest = []) : (q.next h).1 = none := by
  unfold next
  rw [nil]
  rfl

end Snapshot

namespace Moment

/-- A sequence is kept in the slot anew. -/
def takes (slot : Nat) (m : Moment) : Bool :=
  m.slot? == some slot &&
    match m.event with
    | .performed (.call (.snapshot _)) _ (.ok _) => true
    | _ => false

/-- The handles that a call takes from the sequence in the slot. -/
def yields (slot : Nat) (m : Moment) : List ObjectId :=
  if m.slot? = some slot then
    match m.event with
    | .performed _ _ (.ok (.id? answer)) => answer.toList
    | .performed _ _ (.ok (.ids answer)) => answer
    | _ => []
  else
    []

/-- A call finds the sequence in the slot at its end, or takes all that is left of it. -/
def exhausts (slot : Nat) (m : Moment) : Bool :=
  m.slot? == some slot &&
    match m.event with
    | .performed _ _ (.ok (.id? none)) => true
    | .performed _ _ (.ok (.ids _)) => true
    | _ => false

/-- A call yields what is live of the part of the sequence that it passes. -/
theorem Turns.exists_passed (turns : m.Turns slot q q') (keeps : m.takes slot = false) :
    ∃ passed, q.rest = passed ++ q'.rest ∧
      m.yields slot = passed.filter (m.memory.heap.contains ·) := by
  cases turns with
  | taken _ => simp [takes, slot?, Op.slot?] at keeps
  | refused => exact ⟨[], rfl, if_pos rfl⟩
  | @next _ memory q =>
    obtain ⟨passed, rest, answer⟩ := q.next_passed memory.heap
    exact ⟨passed, rest, (if_pos rfl).trans answer⟩
  | remaining q => exact ⟨q.rest, (List.append_nil _).symm, if_pos rfl⟩
  | other other => exact ⟨[], rfl, if_neg other⟩

/-- Once a sequence is exhausted nothing is left of it. -/
theorem Turns.rest_of_exhausts (turns : m.Turns slot q q') (ends : m.exhausts slot = true) :
    q'.rest = [] := by
  obtain ⟨same, ends⟩ := (Bool.and_eq_true _ _).mp ends
  cases turns with
  | taken _ | refused => cases ends
  | @next _ memory q =>
    refine Snapshot.rest_of_next_none ?_
    cases answer : (q.next memory.heap).1 with
    | none => rfl
    | some x =>
      rw [answer] at ends
      cases ends
  | remaining q => rfl
  | other other => exact absurd (eq_of_beq same) other

/-- The next handle is always answered; there is none where nothing is left. -/
theorem Turns.next_answered {before : Memory} {outcome : Except Fault Answer}
    (turns : m.Turns slot q q')
    (asked : m.event = .performed (.call (.snapshotNext slot)) before outcome) :
    ∃ answer, outcome = .ok (.id? answer) ∧ (q.rest = [] → answer = none) := by
  cases turns with
  | taken _ | refused | remaining q => cases asked
  | next q =>
    cases asked
    exact ⟨_, rfl, Snapshot.next_of_rest_nil⟩
  | @other m _ other =>
    obtain ⟨event, memory⟩ := m
    cases asked
    exact absurd rfl other

/-! ## Many calls -/

namespace TurnAll

variable (keeps : ∀ m ∈ ms, m.takes slot = false)
include keeps

/-- What has been taken from a sequence, followed by what is left of it, is part of it in the order
of the sequence. -/
theorem yields_sublist (all : TurnAll slot ms q q') :
    (ms.flatMap (·.yields slot) ++ q'.rest).Sublist q.rest := by
  induction all with
  | nil => exact List.Sublist.refl _
  | cons turns _ ih =>
    rw [List.forall_mem_cons] at keeps
    obtain ⟨passed, rest, yields⟩ := turns.exists_passed keeps.1
    rw [List.flatMap_cons, List.append_assoc, rest, yields]
    exact List.filter_sublist.append (ih keeps.2)

/-- Handles of a sequence are left, have been taken, or were dead when they were passed. -/
theorem left_or_taken (all : TurnAll slot ms q q') (mem : x ∈ q.rest) :
    x ∈ q'.rest ∨ x ∈ ms.flatMap (·.yields slot) ∨
      ∃ m ∈ ms, m.memory.heap.contains x = false := by
  induction all with
  | nil => exact .inl mem
  | @cons m ms _ _ _ turns _ ih =>
    rw [List.forall_mem_cons] at keeps
    obtain ⟨passed, rest, yields⟩ := turns.exists_passed keeps.1
    rw [rest, List.mem_append] at mem
    rw [List.flatMap_cons, List.mem_append]
    rcases mem with mem | mem
    · cases live : m.memory.heap.contains x with
      | true =>
        refine .inr (.inl (.inl ?_))
        rw [yields]
        exact List.mem_filter.mpr ⟨mem, live⟩
      | false => exact .inr (.inr ⟨m, List.mem_cons_self, live⟩)
    · rcases ih keeps.2 mem with left | taken | ⟨m', mem', dead⟩
      · exact .inl left
      · exact .inr (.inl (.inr taken))
      · exact .inr (.inr ⟨m', List.mem_cons_of_mem m mem', dead⟩)

end TurnAll

end Moment

/-! ## Along a run -/

/-- What a host takes, at the moments `during`, from a sequence over containers that were tracked
when memory was `taken`. -/
structure Isolated (slot : Nat) (tracked : List ObjectId) (taken : Memory) (during : List Moment) :
    Prop where
  /-- The next handle can always be asked for. -/
  answered : ∀ m ∈ during, ∀ before outcome,
    m.event = .performed (.call (.snapshotNext slot)) before outcome →
      ∃ answer, outcome = .ok (.id? answer)
  ascending : (during.flatMap (·.yields slot)).Pairwise (· < ·)
  /-- Only what was tracked and live is yielded, and it is live still. -/
  live : ∀ m ∈ during, ∀ x ∈ m.yields slot,
    x ∈ tracked ∧ (∃ o, taken.heap.get? x = some o ∧ o.kind = .container) ∧
      m.memory.heap.contains x = true
  /-- What is left out is dead. -/
  skipped : ∀ m ∈ during, ∀ y ∈ m.yields slot, ∀ x ∈ tracked, x < y →
    x ∉ during.flatMap (·.yields slot) → m.memory.heap.contains x = false
  /-- The end of the sequence is final. -/
  ended : ∀ earlier m later, during = earlier ++ m :: later → m.exhausts slot = true →
    ∀ m' ∈ later, ∀ before outcome,
      m'.event = .performed (.call (.snapshotNext slot)) before outcome → outcome = .ok (.id? none)
  /-- Nothing that is live at the end has been left out, or yielded twice. -/
  complete : ∀ earlier m later, during = earlier ++ m :: later → m.exhausts slot = true →
    ∀ x ∈ tracked, m.memory.heap.contains x = true →
      ((earlier ++ [m]).flatMap (·.yields slot)).count x = 1
  /-- Nothing is yielded that has been allocated since. -/
  old : ∀ x ∈ during.flatMap (·.yields slot), x < taken.heap.nextId

/-- What is tracked is a live container. -/
theorem Memory.Filed.exists_tracked {m : Memory} {c : Collector} (filed : m.Filed)
    (hc : m.collector = some c) (mem : x ∈ c.tracker.tracked) :
    x < m.heap.nextId ∧ ∃ o, m.heap.get? x = some o ∧ o.kind = .container := by
  obtain ⟨g, -, mem⟩ := (Tracker.mem_candidates _ _).mp mem
  obtain ⟨o, ho, kind, -⟩ := (filed.files hc).exists_container mem
  exact ⟨(filed.keyed.keyed ho).2.2, o, ho, kind⟩

namespace Moment.TurnAll

variable {during earlier later : List Moment} {c : Collector} {taken : Memory}

/-- What becomes of a sequence up to a moment and after it. -/
theorem exists_through (all : TurnAll slot (earlier ++ m :: later) q q') :
    ∃ q₁, TurnAll slot (earlier ++ [m]) q q₁ ∧ TurnAll slot later q₁ q' ∧
      (m.exhausts slot = true → q₁.rest = []) := by
  obtain ⟨q₁, q₂, before, turns, after⟩ := all.exists_of_between
  exact ⟨q₂, before.append (.single turns), after, turns.rest_of_exhausts⟩

/-- What has been passed and not been taken is dead. -/
theorem taken_or_dead (all : TurnAll slot (earlier ++ [m]) q q')
    (keeps : ∀ m' ∈ earlier ++ [m], m'.takes slot = false)
    (dies : ∀ m' ∈ earlier, m'.memory.heap.contains x = false → m.memory.heap.contains x = false)
    (mem : x ∈ q.rest) (passed : x ∉ q'.rest) :
    x ∈ (earlier ++ [m]).flatMap (·.yields slot) ∨ m.memory.heap.contains x = false := by
  rcases all.left_or_taken keeps mem with left | taken | ⟨m', mem', dead⟩
  · exact absurd left passed
  · exact .inl taken
  · rcases List.mem_append.mp mem' with before | now
    · exact .inr (dies m' before dead)
    · exact .inr (List.mem_singleton.mp now ▸ dead)

/-- In an ascending sequence, what comes before a handle has been passed when that one is taken. -/
theorem passed_of_lt (all : TurnAll slot (earlier ++ [m]) q q')
    (keeps : ∀ m' ∈ earlier ++ [m], m'.takes slot = false) (sorted : q.rest.Pairwise (· < ·))
    (yields : y ∈ m.yields slot) (less : x < y) : x ∉ q'.rest := by
  have ascending := List.pairwise_append.mp (sorted.sublist (all.yields_sublist keeps))
  have taken : y ∈ (earlier ++ [m]).flatMap (·.yields slot) :=
    List.mem_flatMap.mpr ⟨m, List.mem_append_right _ (List.mem_singleton.mpr rfl), yields⟩
  exact fun left => Nat.lt_asymm less (ascending.2.2 y taken x left)

/-- At the end of a sequence there is no next handle any more. -/
theorem next_none (all : TurnAll slot ms q q') (keeps : ∀ m ∈ ms, m.takes slot = false)
    (nil : q.rest = []) (mem : m ∈ ms) {before : Memory} {outcome : Except Fault Answer}
    (asked : m.event = .performed (.call (.snapshotNext slot)) before outcome) :
    outcome = .ok (.id? none) := by
  obtain ⟨earlier, later, rfl⟩ := List.append_of_mem mem
  obtain ⟨q₁, q₂, all, turns, -⟩ := all.exists_of_between
  have sublist := all.yields_sublist fun m mem => keeps m (List.mem_append_left _ mem)
  rw [nil, List.sublist_nil, List.append_eq_nil_iff] at sublist
  obtain ⟨answer, rfl, none⟩ := turns.next_answered asked
  rw [none sublist.2]

section

variable (all : TurnAll slot (earlier ++ m :: later) q q')
  (keeps : ∀ m' ∈ earlier ++ m :: later, m'.takes slot = false) (sorted : q.rest.Pairwise (· < ·))
  (dies : ∀ m' ∈ earlier, m'.memory.heap.contains x = false → m.memory.heap.contains x = false)
include all keeps sorted dies

/-- A handle that is left out although a greater one is yielded is dead by then. -/
theorem dead_of_skipped (mem : x ∈ q.rest) (yields : y ∈ m.yields slot) (less : x < y)
    (never : x ∉ (earlier ++ m :: later).flatMap (·.yields slot)) :
    m.memory.heap.contains x = false := by
  rw [List.append_cons] at keeps never
  have keeps := fun m' mem => keeps m' (List.mem_append_left later mem)
  obtain ⟨q₁, before, -, -⟩ := all.exists_through
  have passed := before.passed_of_lt keeps sorted yields less
  refine (before.taken_or_dead keeps dies mem passed).resolve_left fun taken => never ?_
  rw [List.flatMap_append]
  exact List.mem_append_left _ taken

/-- A handle that is live when the sequence is exhausted has been yielded once. -/
theorem count_of_exhausts (ends : m.exhausts slot = true) (mem : x ∈ q.rest)
    (live : m.memory.heap.contains x = true) :
    ((earlier ++ [m]).flatMap (·.yields slot)).count x = 1 := by
  rw [List.append_cons] at keeps
  have keeps := fun m' mem => keeps m' (List.mem_append_left later mem)
  obtain ⟨q₁, before, -, nil⟩ := all.exists_through
  have passed : x ∉ q₁.rest := by
    rw [nil ends]
    exact List.not_mem_nil
  have taken := (before.taken_or_dead keeps dies mem passed).resolve_right (by simp [live])
  have part := (List.sublist_append_left _ _).trans (before.yields_sublist keeps)
  exact List.count_eq_one_of_mem ((sorted.sublist part).imp Nat.ne_of_lt) taken

end

/-- No handle is given out again: what was there once and is dead stays dead. -/
theorem stays_dead (old : x < taken.heap.nextId)
    (since : ∀ m' ∈ earlier ++ m :: later, taken.heap.Later m'.memory.heap)
    (ordered : (earlier ++ m :: later).Pairwise fun m m' => m.memory.heap.Later m'.memory.heap) :
    ∀ m' ∈ earlier, m'.memory.heap.contains x = false → m.memory.heap.contains x = false := by
  intro m' before dead
  rw [Heap.contains_eq_false_iff] at dead ⊢
  have later := (List.pairwise_append.mp ordered).2.2 m' before m List.mem_cons_self
  have nextId := (since m' (List.mem_append_left _ before)).nextId
  exact later.dead (Nat.lt_of_lt_of_le old nextId) dead

/-- A sequence over the containers of a moment is isolated from what happens later. -/
theorem isolated (all : TurnAll slot during (.of c.tracker) q)
    (keeps : ∀ m ∈ during, m.takes slot = false) (filed : taken.Filed)
    (hc : taken.collector = some c) (since : ∀ m ∈ during, taken.heap.Later m.memory.heap)
    (ordered : during.Pairwise fun m m' => m.memory.heap.Later m'.memory.heap) :
    Isolated slot c.tracker.tracked taken during := by
  have sorted : c.tracker.tracked.Pairwise (· < ·) :=
    (filed.files hc).ascending_candidates .oldest
  have sublist : (during.flatMap (·.yields slot)).Sublist c.tracker.tracked :=
    (List.sublist_append_left _ _).trans (all.yields_sublist keeps)
  have old {x : ObjectId} (mem : x ∈ c.tracker.tracked) : x < taken.heap.nextId :=
    (filed.exists_tracked hc mem).1
  constructor
  case answered =>
    intro m mem before outcome asked
    obtain ⟨earlier, later, rfl⟩ := List.append_of_mem mem
    obtain ⟨q₁, q₂, -, turns, -⟩ := all.exists_of_between
    obtain ⟨answer, answered, -⟩ := turns.next_answered asked
    exact ⟨answer, answered⟩
  case ascending => exact sorted.sublist sublist
  case live =>
    intro m mem x yields
    have tracked := sublist.subset (List.mem_flatMap.mpr ⟨m, mem, yields⟩)
    obtain ⟨earlier, later, rfl⟩ := List.append_of_mem mem
    obtain ⟨q₁, q₂, -, turns, -⟩ := all.exists_of_between
    obtain ⟨passed, -, live⟩ := turns.exists_passed (keeps m mem)
    rw [live] at yields
    exact ⟨tracked, (filed.exists_tracked hc tracked).2, (List.mem_filter.mp yields).2⟩
  case skipped =>
    intro m mem y yields x tracked less never
    obtain ⟨earlier, later, rfl⟩ := List.append_of_mem mem
    have dies := stays_dead (old tracked) since ordered
    exact all.dead_of_skipped keeps sorted dies tracked yields less never
  case ended =>
    rintro earlier m later rfl ends m' mem before outcome asked
    obtain ⟨q₁, -, after, nil⟩ := all.exists_through
    have keeps : ∀ m' ∈ later, m'.takes slot = false := fun m' mem =>
      keeps m' (List.mem_append_right _ (List.mem_cons_of_mem m mem))
    exact after.next_none keeps (nil ends) mem asked
  case complete =>
    rintro earlier m later rfl ends x tracked live
    have dies := stays_dead (old tracked) since ordered
    exact all.count_of_exhausts keeps sorted dies ends tracked live
  case old => exact fun x mem => old (sublist.subset mem)

end Moment.TurnAll

/-- A moment at which a sequence is kept anew makes it one over the tracked containers. -/
theorem Moment.Turns.exists_tracker (turns : m.Turns slot q q') (takes : m.takes slot = true) :
    ∃ c, m.memory.collector = some c ∧ q' = .of c.tracker := by
  obtain ⟨same, takes⟩ := (Bool.and_eq_true _ _).mp takes
  cases turns with
  | taken hc => exact ⟨_, hc, rfl⟩
  | refused | next q | remaining q => cases takes
  | other other => exact absurd (eq_of_beq same) other

namespace Machine

variable {s : Machine}

/-- Snapshot isolation. In every run of a host, let a sequence over the tracked containers be kept
at some moment, from outside or by a hook, and let handles be taken from it at later moments, until
another one is kept in its slot. The next handle is always answered, and handles come in ascending
order. What is yielded was a tracked, live container when the sequence was kept and is live when it
is yielded; a handle that is left out although a greater one is yielded is dead by then. When the
sequence has come to its end no more handles follow, and each tracked container that is live then
has been yielded exactly once. Nothing is ever yielded that was allocated later. -/
theorem Attained.snapshot_isolated (run : Attained s) {ops : List Op}
    (host : ops.all Op.isOutsideOp = true) {before during after : List Moment} {taken : Moment}
    (annals : s.annals ops = before ++ taken :: (during ++ after))
    (takes : taken.takes slot = true) (keeps : ∀ m ∈ during, m.takes slot = false) :
    ∃ c, taken.memory.collector = some c ∧
      Isolated slot c.tracker.tracked taken.memory during := by
  have turns := annals_turn s ops slot
  obtain ⟨filed, ordered⟩ := run.annals_chronicle host
  rw [annals] at turns filed ordered
  obtain ⟨q₁, q₂, -, turn, turns⟩ := turns.exists_of_between
  obtain ⟨c, hc, rfl⟩ := turn.exists_tracker takes
  obtain ⟨q₃, turns, -⟩ := turns.exists_of_append
  have filed := filed taken (List.mem_append_right _ List.mem_cons_self)
  obtain ⟨since, ordered⟩ := List.pairwise_cons.mp (List.pairwise_append.mp ordered).2.1
  exact ⟨c, hc, turns.isolated keeps filed hc
    (fun m mem => since m (List.mem_append_left _ mem)) (List.pairwise_append.mp ordered).1⟩

/-- Four containers. The second one refers to itself and is let go of; its finalizer advances the
sequence in a slot. -/
def census : Machine :=
  (attended.performAll [
    .call (.allocate .container "node"), .call (.allocate .container "node"),
    .call (.allocate .container "node"), .call (.allocate .container "node"),
    .call (.addEdge (.id 2) (.id 2)),
    .setFinalizer (.id 2) [⟨.call (.snapshotNext 0), false⟩], .call (.release (.id 2))]).2

/-- Between the calls on a sequence the second container is collected, the third one freed and a
fifth one allocated. -/
def survey : List Op :=
  [.call (.snapshot 0), .call (.snapshotNext 0), .call (.collect 0), .call (.release (.id 3)),
    .call (.allocate .container "node"), .call (.snapshotNext 0), .call (.snapshotNext 0),
    .call (.snapshotNext 0)]

theorem attained_census : Attained census :=
  Tended.attained (Supervised.performAll (.attach {} (.start none rfl) Heap.get?_empty) (by rfl))

/-- The second container is yielded to its own finalizer; the third one is left out. -/
theorem snapshot_isolated_census :
    ∃ taken during c, census.annals survey = taken :: during ∧
      taken.memory.collector = some c ∧ Isolated 0 c.tracker.tracked taken.memory during ∧
      during.map (·.yields 0) = [[1], [], [2], [], [], [], [], [], [4], [], []] := by
  have takes : (census.annals survey).map (·.takes 0) = true :: .replicate 11 false := by
    decide +kernel
  have yields : (census.annals survey).map (·.yields 0) =
      [[], [1], [], [2], [], [], [], [], [], [4], [], []] := by decide +kernel
  obtain ⟨taken, during, annals, takes, keeps⟩ := List.map_eq_cons_iff.mp takes
  rw [annals] at yields
  obtain ⟨c, hc, isolated⟩ := @Attained.snapshot_isolated 0 census attained_census survey rfl
    [] during [] taken (by rw [List.append_nil, annals]; rfl) takes
    (List.forall_mem_map.mp (List.eq_replicate_iff.mp keeps).2)
  exact ⟨taken, during, c, annals, hc, isolated, (List.cons.inj yields).2⟩

end Machine

end Reclaim
