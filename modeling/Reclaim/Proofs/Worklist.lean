import Reclaim.Cycles
import Reclaim.Proofs.Marking

/-!
# The loop over the gray members

The two steps of the analysis on a heap of any kind, also on one whose counts contradict its
references. The first step writes the external counts and is refused just if one of them is
negative; the second one blackens the members that references between members lead to from one with
a positive external count (`Analysis.counts_and_marks`).

The marking is defined with a bound on its rounds. `Analysis.Drains` is the loop without a bound,
and keeps what each round puts on the stack; the bound is never met
(`Analysis.drains_of_propagate`), and what is put on the stack is white then and never white again,
so no member is put on it twice (`Analysis.Drains.pushed_once`).
-/

set_option autoImplicit false

namespace Reclaim

namespace Analysis

variable {h : Heap} {members stack pushed : List ObjectId} {x : ObjectId} {o : Object}
  {c : ObjectId → Color} {among : IdSet} {state final : Heap × List ObjectId}

/-! ## Reachability among the members -/

/-- References between members lead to the object from a member with a positive external count. -/
def ReachedFromOutside (counted : Heap) (members : List ObjectId) (x : ObjectId) : Prop :=
  ∃ start ∈ members, (∃ o, counted.get? start = some o ∧ 0 < o.gcRefs) ∧
    Relation.ReflTransGen (fun r y => y ∈ counted.refs r ∧ y ∈ members) start x

theorem refs_externalCounts (h : Heap) (members : List ObjectId) (x : ObjectId) :
    (externalCounts h members).refs x = h.refs x := by
  apply (externalCounts_rewrites h members).refs
  intro x o
  split <;> rfl

theorem get?_externalCounts (hx : x ∈ members) (ho : h.get? x = some o) :
    (externalCounts h members).get? x =
      some { o with gcRefs := o.strongCount - h.inEdgesFrom members x } := by
  rw [(externalCounts_rewrites h members).get? ho, if_pos hx]

theorem held_iff_reachedFromOutside (live : ∀ x ∈ members, ∃ o, h.get? x = some o) :
    Held h members x ↔ ReachedFromOutside (externalCounts h members) members x := by
  constructor
  · intro held
    induction held with
    | @outside x o mem ho external =>
      refine ⟨x, mem, ⟨_, get?_externalCounts mem ho, ?_⟩, .refl⟩
      show 0 < (o.strongCount : Int) - h.inEdgesFrom members x
      omega
    | @step x y _ refers mem ih =>
      obtain ⟨start, first, positive, path⟩ := ih
      rw [← refs_externalCounts h members] at refers
      exact ⟨start, first, positive, path.tail ⟨refers, mem⟩⟩
  · rintro ⟨start, first, ⟨p, hp, positive⟩, path⟩
    induction path with
    | refl =>
      obtain ⟨o, ho⟩ := live start first
      rw [get?_externalCounts first ho, Option.some.injEq] at hp
      subst hp
      have external : 0 < (o.strongCount : Int) - h.inEdgesFrom members start := positive
      exact .outside first ho (by omega)
    | tail _ edge ih =>
      rw [refs_externalCounts] at edge
      exact ih.step edge.1 edge.2

/-! ## Rounds without a bound -/

/-- The loop over the stack: each round takes the top off the stack, blackens it and leaves what
that pushes on top of the rest, until the stack is empty. The list between the first state and the
last one holds all that was pushed, last things first. -/
inductive Drains (among : IdSet) :
    Heap × List ObjectId → List ObjectId → Heap × List ObjectId → Prop where
  | done (h : Heap) : Drains among (h, []) [] (h, [])
  | round {h h' : Heap} {x : ObjectId} {stack pushed later : List ObjectId}
      {final : Heap × List ObjectId} : blacken among h stack x = (h', pushed ++ stack) →
      Drains among (h', pushed ++ stack) later final →
      Drains among (h, x :: stack) (later ++ pushed) final

theorem gray_pushes (state : Heap × List ObjectId) (x : ObjectId) :
    ∃ pushed, (gray state x).2 = pushed ++ state.2 := by
  unfold gray
  split
  · split
    · exact ⟨[x], rfl⟩
    · exact ⟨[], rfl⟩
  · exact ⟨[], rfl⟩

theorem grays_push (xs : List ObjectId) (state : Heap × List ObjectId) :
    ∃ pushed, (xs.foldl gray state).2 = pushed ++ state.2 := by
  induction xs generalizing state with
  | nil => exact ⟨[], rfl⟩
  | cons x xs ih =>
    obtain ⟨first, one⟩ := gray_pushes state x
    obtain ⟨pushed, rest⟩ := ih (gray state x)
    refine ⟨pushed ++ first, ?_⟩
    rw [List.foldl_cons, rest, one, List.append_assoc]

/-- Blackening an object leaves the stack below as it is. -/
theorem exists_of_blacken (among : IdSet) (h : Heap) (stack : List ObjectId) (x : ObjectId) :
    ∃ h' pushed, blacken among h stack x = (h', pushed ++ stack) := by
  unfold blacken
  split
  · exact ⟨h, [], rfl⟩
  · next o _ =>
    obtain ⟨pushed, onTop⟩ :=
      grays_push (o.references.filter (among.contains ·)) (setColor .black h x, stack)
    exact ⟨_, pushed, Prod.ext rfl onTop⟩

/-- Rounds that leave an empty stack are all the rounds of the loop. -/
theorem drains_of_propagate {rounds : Nat} (empty : (propagate among rounds state).2 = []) :
    ∃ pushed, Drains among state pushed (propagate among rounds state) := by
  induction rounds generalizing state with
  | zero =>
    obtain ⟨h, stack⟩ := state
    cases empty
    exact ⟨[], .done h⟩
  | succ rounds ih =>
    obtain ⟨h, stack⟩ := state
    cases stack with
    | nil => exact ⟨[], .done h⟩
    | cons x stack =>
      obtain ⟨h', pushed, round⟩ := exists_of_blacken among h stack x
      have next : propagate among (rounds + 1) (h, x :: stack) =
          propagate among rounds (h', pushed ++ stack) := by
        rw [propagate, round]
      rw [next] at empty ⊢
      obtain ⟨later, drains⟩ := ih empty
      exact ⟨later ++ pushed, .round round drains⟩

/-- What a round pushes was white before it and is gray behind it, and nothing becomes white. -/
theorem pushed_of_blacken (live : ∀ x ∈ members, ∃ o, h.get? x = some o) {h₁ h₂ : Heap}
    (M : Marking h members c (h₁, x :: stack)) (followed : Followed h members c)
    (round : blacken (index members) h₁ stack x = (h₂, pushed ++ stack)) :
    ∃ c', Marking h members c' (h₂, pushed ++ stack) ∧ Followed h members c' ∧
      (∀ y ∈ pushed, c y = .white ∧ c' y = .gray) ∧ ∀ y, c' y = .white → c y = .white := by
  obtain ⟨c', M', followed', black, darker⟩ := blacken_marks live M followed
  rw [round] at M'
  obtain ⟨-, -, apart⟩ := List.nodup_append.mp M'.nodup
  refine ⟨c', M', followed', ?_, ?_⟩
  · intro y mem
    have gray : c' y = .gray := (M'.gray y).mpr (List.mem_append_left stack mem)
    refine ⟨?_, gray⟩
    have unblackened : ¬ (y = x ∨ c y = .black) := by
      intro blackened
      rw [(black y).mpr blackened] at gray
      cases gray
    cases before : c y with
    | white => rfl
    | black => exact absurd (.inr before) unblackened
    | gray =>
      -- it would be what is blackened, or be on the stack below as well
      rcases List.mem_cons.mp ((M.gray y).mp before) with top | below
      · exact absurd (.inl top) unblackened
      · exact absurd rfl (apart y mem y below)
  · intro y white
    by_contra marked
    exact darker y marked white

/-- What the loop pushes was white when the loop began, and is pushed once. -/
theorem Drains.pushed_once (live : ∀ x ∈ members, ∃ o, h.get? x = some o)
    (run : Drains (index members) state pushed final) (M : Marking h members c state)
    (followed : Followed h members c) : pushed.Nodup ∧ ∀ y ∈ pushed, c y = .white := by
  induction run generalizing c with
  | done => exact ⟨List.nodup_nil, fun y mem => absurd mem List.not_mem_nil⟩
  | @round h₁ h₂ x stack pushed later final round _ ih =>
    obtain ⟨c', M', followed', fresh, still⟩ := pushed_of_blacken live M followed round
    obtain ⟨once, white⟩ := ih M' followed'
    obtain ⟨onTop, -, -⟩ := List.nodup_append.mp M'.nodup
    refine ⟨List.nodup_append.mpr ⟨once, onTop, ?_⟩, ?_⟩
    · -- what is pushed later is white behind this round, which its own members are not
      rintro y mem z mem' rfl
      have gray := (fresh y mem').2
      rw [white y mem] at gray
      cases gray
    · intro y mem
      rcases List.mem_append.mp mem with mem | mem
      · exact still y (white y mem)
      · exact (fresh y mem).1

/-- All that the marking puts on the stack, before the rounds and in them, is put there once. -/
theorem exists_pushed_once (live : ∀ x ∈ members, ∃ o, h.get? x = some o) :
    ∃ pushed, Drains (index members) (opening (externalCounts h members) members) pushed
        (mark (externalCounts h members) members) ∧
      (pushed ++ (opening (externalCounts h members) members).2).Nodup := by
  obtain ⟨-, -, empty, -⟩ := mark_black_iff live
  obtain ⟨pushed, run⟩ := drains_of_propagate empty
  obtain ⟨c, M, none, -⟩ := opening_marks live
  obtain ⟨once, white⟩ := run.pushed_once live M (followed_of_not_black none)
  refine ⟨pushed, run, List.nodup_append.mpr ⟨once, M.nodup, ?_⟩⟩
  rintro x mem y below rfl
  have gray := (M.gray x).mpr below
  rw [white x mem] at gray
  cases gray

/-! ## Both steps -/

/-- The first step: each member has got its external count, the number of references to it less
those that members hold, and nothing else has changed. -/
structure Counted (h : Heap) (members : List ObjectId) (counted : Heap) : Prop where
  nextId : counted.nextId = h.nextId
  freed : counted.freed = h.freed
  member : ∀ x ∈ members, ∀ o, h.get? x = some o →
    counted.get? x = some { o with gcRefs := o.strongCount - h.inEdgesFrom members x }
  other : ∀ x, x ∉ members → counted.get? x = h.get? x

/-- The second step: members that references between members lead to from one with a positive
external count are black, the others are white, and nothing else has changed. -/
structure Blackened (counted : Heap) (members : List ObjectId) (marked : Heap) : Prop where
  nextId : marked.nextId = counted.nextId
  freed : marked.freed = counted.freed
  reached : ∀ x ∈ members, ReachedFromOutside counted members x → ∀ o, counted.get? x = some o →
    marked.get? x = some { o with color := .black }
  unreached : ∀ x ∈ members, ¬ ReachedFromOutside counted members x →
    ∀ o, counted.get? x = some o → marked.get? x = some { o with color := .white }
  other : ∀ x, x ∉ members → marked.get? x = counted.get? x

theorem counted_externalCounts (h : Heap) (members : List ObjectId) :
    Counted h members (externalCounts h members) where
  nextId := (externalCounts_rewrites h members).nextId
  freed := (externalCounts_rewrites h members).freed
  member _ hx _ ho := get?_externalCounts hx ho
  other x hx := by
    rw [(externalCounts_rewrites h members).objects]
    simp only [if_neg hx, Option.map_id']

theorem blackened_mark (live : ∀ x ∈ members, ∃ o, h.get? x = some o) :
    Blackened (externalCounts h members) members (mark (externalCounts h members) members).1 := by
  obtain ⟨c, R, -, black, never⟩ := mark_black_iff live
  have counted := counted_externalCounts h members
  have color (x : ObjectId) (hx : x ∈ members) (o : Object)
      (ho : (externalCounts h members).get? x = some o) :
      (mark (externalCounts h members) members).1.get? x = some { o with color := c x } := by
    obtain ⟨p, hp⟩ := live x hx
    rw [counted.member x hx p hp, Option.some.injEq] at ho
    subst ho
    rw [R.get? hp, paint, if_pos hx]
  constructor
  · exact R.nextId.trans counted.nextId.symm
  · exact R.freed.trans counted.freed.symm
  · intro x hx reached o ho
    have held := (held_iff_reachedFromOutside live).mpr reached
    rw [color x hx o ho, (black x).mpr held]
  · intro x hx unreached o ho
    rw [color x hx o ho]
    cases hc : c x with
    | white => rfl
    | gray => exact absurd hc (never x)
    | black => exact absurd ((held_iff_reachedFromOutside live).mp ((black x).mp hc)) unreached
  · intro x hx
    have same : paint h members c x = fun o => o := funext fun o => if_neg hx
    rw [R.objects, counted.other x hx, same, Option.map_id']

theorem exists_of_deficient? (found : deficient? h members = some x) :
    x ∈ members ∧ ∃ o, h.get? x = some o ∧ o.gcRefs < 0 := by
  refine ⟨List.mem_of_find?_eq_some found, ?_⟩
  have negative := List.find?_some found
  cases ho : h.get? x with
  | none => simp [ho] at negative
  | some o => exact ⟨o, rfl, by simpa [ho] using negative⟩

theorem exists_deficient (hx : x ∈ members) (ho : h.get? x = some o) (negative : o.gcRefs < 0) :
    ∃ y, deficient? h members = some y := by
  apply Option.isSome_iff_exists.mp
  rw [deficient?, List.find?_isSome]
  exact ⟨x, hx, by simpa [ho] using negative⟩

end Analysis

open Analysis

variable {s s' : Machine} {members : List ObjectId} {fault : Fault}

/-- The division is refused for the first member with a negative external count; the external counts
have been written by then. -/
theorem Cycles.divide_eq_error_iff :
    divide members s = .error fault s' ↔
      ∃ x, deficient? (externalCounts s.memory.heap members) members = some x ∧
        fault = .inconsistentCount (.belowEdges x) ∧
        s' = s.withHeap (externalCounts s.memory.heap members) := by
  simp only [divide, Act.bind_apply, Act.heap_apply, Act.setHeap_apply]
  cases deficient? (externalCounts s.memory.heap members) members with
  | none => simp
  | some x => simp [eq_comm]

namespace Analysis

/-- The two steps of the analysis on any heap, whether its counts agree with its references or not.
The first one writes the external counts of the members, and they are refused just if one of these
is negative. The second one ends with an empty stack that no member has been put on twice, and with
each member black or white, by whether it is reached from one with a positive external count. -/
theorem counts_and_marks (live : ∀ x ∈ members, s.memory.heap.contains x = true) :
    let counted := externalCounts s.memory.heap members
    Counted s.memory.heap members counted ∧
      ((∃ fault s', Cycles.divide members s = .error fault s') ↔
        ∃ x ∈ members, ∃ o, counted.get? x = some o ∧ o.gcRefs < 0) ∧
      (∀ fault s', Cycles.divide members s = .error fault s' → s' = s.withHeap counted ∧
        ∃ x ∈ members, fault = .inconsistentCount (.belowEdges x) ∧
          ∃ o, counted.get? x = some o ∧ o.gcRefs < 0) ∧
      Blackened counted members (mark counted members).1 ∧ (mark counted members).2 = [] ∧
      ∃ pushed, Drains (index members) (opening counted members) pushed (mark counted members) ∧
        (pushed ++ (opening counted members).2).Nodup := by
  intro counted
  have live' : ∀ x ∈ members, ∃ o, s.memory.heap.get? x = some o := by
    intro x hx
    exact Option.isSome_iff_exists.mp (live x hx)
  have refused : ∀ fault s', Cycles.divide members s = .error fault s' →
      s' = s.withHeap counted ∧ ∃ x ∈ members, fault = .inconsistentCount (.belowEdges x) ∧
        ∃ o, counted.get? x = some o ∧ o.gcRefs < 0 := by
    intro fault s' run
    obtain ⟨x, found, rfl, rfl⟩ := Cycles.divide_eq_error_iff.mp run
    obtain ⟨hx, negative⟩ := exists_of_deficient? found
    exact ⟨rfl, x, hx, rfl, negative⟩
  obtain ⟨-, -, empty, -⟩ := mark_black_iff live'
  refine ⟨counted_externalCounts _ _, ⟨?_, ?_⟩, refused, blackened_mark live', empty,
    exists_pushed_once live'⟩
  · rintro ⟨fault, s', run⟩
    obtain ⟨-, x, hx, -, negative⟩ := refused fault s' run
    exact ⟨x, hx, negative⟩
  · rintro ⟨x, hx, o, ho, negative⟩
    obtain ⟨y, found⟩ := exists_deficient hx ho negative
    exact ⟨_, _, Cycles.divide_eq_error_iff.mpr ⟨y, found, rfl, rfl⟩⟩

/-- A heap whose counts do not agree with its references: the first container refers twice to the
second one and once to an object that does not exist, the second one to the first and the third one,
the fourth one to itself, and the fifth one to the fourth one, which does not count it. -/
def tampered : Machine :=
  (({} : Machine).performAll [
    .call (.allocateMany .container 5),
    .raw (.appendReference (.id 1) (.id 2)), .raw (.appendReference (.id 1) (.id 2)),
    .raw (.appendReference (.id 1) (.id 9)), .raw (.appendReference (.id 2) (.id 1)),
    .raw (.appendReference (.id 2) (.id 3)), .raw (.appendReference (.id 4) (.id 4)),
    .raw (.appendReference (.id 5) (.id 4)), .raw (.incRef (.id 1)), .raw (.incRef (.id 2))]).2

/-- Without the fifth container the analysis succeeds, and the fourth one is not reached; with it
the fourth one has a negative external count. -/
theorem counts_and_marks_tampered :
    (∀ x ∈ [1, 2, 3, 4, 5], tampered.memory.heap.contains x = true) ∧
      (∃ fault s', Cycles.divide [1, 2, 3, 4, 5] tampered = .error fault s') ∧
      ((externalCounts tampered.memory.heap [1, 2, 3, 4]).toList.map fun o => (o.id, o.gcRefs)) =
        [(1, 1), (2, 0), (3, 0), (4, 0), (5, 0)] ∧
      Blackened (externalCounts tampered.memory.heap [1, 2, 3, 4]) [1, 2, 3, 4]
        (mark (externalCounts tampered.memory.heap [1, 2, 3, 4]) [1, 2, 3, 4]).1 ∧
      ((mark (externalCounts tampered.memory.heap [1, 2, 3, 4]) [1, 2, 3, 4]).1.toList.map
        fun o => (o.id, o.color)) =
        [(1, .black), (2, .black), (3, .black), (4, .white), (5, .white)] := by
  have live : ∀ x ∈ [1, 2, 3, 4, 5], tampered.memory.heap.contains x = true := by decide +kernel
  obtain ⟨-, refused, -⟩ := counts_and_marks live
  obtain ⟨-, -, -, blackened, -⟩ :=
    @counts_and_marks tampered [1, 2, 3, 4] (by decide +kernel)
  have found : deficient? (externalCounts tampered.memory.heap [1, 2, 3, 4, 5]) [1, 2, 3, 4, 5] =
      some 4 := by decide +kernel
  obtain ⟨mem, negative⟩ := exists_of_deficient? found
  exact ⟨live, refused.mpr ⟨4, mem, negative⟩, by decide +kernel, blackened, by decide +kernel⟩

end Analysis

end Reclaim
