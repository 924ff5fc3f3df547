import Reclaim.Proofs.Budgets
import Reclaim.Proofs.CountingLaw
import Reclaim.Proofs.Finalizers
import Reclaim.Proofs.Schedule

/-!
# Every operation finishes

Releases set off finalizers, which release and collect in turn; collections run finalizers before
they release what their garbage has held. Neither queues nor the heap grow smaller on the way. What
does is the number of objects that may still be finalized: a finalizer that is entered uses up one
of them, and none is ever added, as the scripts that installing instructions are part of name them
beforehand (`Machine.Steps.finalized_add_unspent_le`).

So the budget that an operation is given covers every finalizer that is run in its course, and with
any larger one it does the same (`Machine.Attained.call_finishes`). The loops that run no finalizers
end for reasons of their own: a round of a drain frees an object (`Release.drain_of_size_le`), and a
pass makes none due but over the next older generation (`Pass.runDue_of_le`).
-/

set_option autoImplicit false

namespace Reclaim

open Machine Act

variable {α β : Type} {sc : Scope} {L L' : Loose} {s s' : Machine} {x : ObjectId}

/-! ## Draining the queue -/

namespace Act

/-- Whatever its outcome, the action leaves as many objects live as before. -/
def KeepsSize (act : Act α) : Prop :=
  ∀ s, act.Always s fun s' => s'.memory.heap.size = s.memory.heap.size

variable {act : Act α} {f : α → Act β}

theorem Still.keepsSize (still : Still act) : KeepsSize act := fun s =>
  (still s).mono fun _ same => by rw [same]

theorem KeepsSize.bind (keeps : KeepsSize act) (next : ∀ a, KeepsSize (f a)) :
    KeepsSize (act >>= f) := fun s =>
  Always.bind (keeps s) (fun a s' _ size => (next a s').mono fun _ size' => size'.trans size)
    fun _ _ _ size => size

theorem KeepsSize.of_ok {a : α} (keeps : KeepsSize act) (run : act s = .ok a s') :
    s'.memory.heap.size = s.memory.heap.size := by
  have always := keeps s
  unfold Always at always
  rwa [run] at always

theorem keepsSize_edit {f : Heap → Except Fault Heap}
    (same : ∀ h h', f h = .ok h' → h'.size = h.size) : KeepsSize (edit f) := fun s => by
  cases run : f s.memory.heap with
  | ok h => exact always_of_ok (edit_of_ok run) (same _ _ run)
  | error e => exact always_of_error (edit_of_error run) rfl

end Act

namespace Release

/-- Counting a reference less keeps the object, if it is done at all. -/
theorem keepsSize_decRef (x : ObjectId) : KeepsSize (editWith (·.decRef x)) := by
  intro s
  cases run : s.memory.heap.decRef x with
  | ok result =>
    obtain ⟨o, ho, decreased⟩ := Heap.exists_of_bind run
    obtain ⟨p, -, e⟩ := Heap.exists_of_bind decreased
    cases e
    exact always_of_ok (editWith_of_ok run) (Heap.size_put (Heap.get_eq_ok_iff.mp ho) p)
  | error e =>
    have refused : editWith (·.decRef x) s = .error e s := by
      simp only [editWith, bind_apply, heap_apply, run, ofExcept_error]
    exact always_of_error refused rfl

theorem keepsSize_setFreeing (x : ObjectId) : KeepsSize (edit (·.setFreeing x true)) := by
  apply keepsSize_edit
  intro h h' run
  obtain ⟨o, ho, e⟩ := Heap.exists_of_bind run
  cases e
  exact Heap.size_put (Heap.get_eq_ok_iff.mp ho) _

/-- If an object is taken out of the heap, there is one less. -/
theorem size_of_destroy (run : destroy x s = .ok () s') :
    s'.memory.heap.size + 1 = s.memory.heap.size := by
  simp only [destroy, bind_apply, memory_apply] at run
  cases hx : s.memory.heap.get? x with
  | none =>
    simp only [Memory.destroy, hx, ofExcept_error] at run
    cases run
  | some o =>
    simp only [Memory.destroy_of_get? hx, ofExcept_ok, record_apply, setMemory_apply] at run
    cases run
    exact Heap.size_erase hx

theorem keepsSize_surrender (queue xs : List ObjectId) : KeepsSize (surrender queue xs) := by
  induction xs generalizing queue with
  | nil => exact (still_pure queue).keepsSize
  | cons x xs ih =>
    unfold surrender
    refine still_heap.keepsSize.bind fun h => ?_
    split
    · exact ih queue
    · split
      · exact ih queue
      · refine (keepsSize_decRef x).bind fun count => ?_
        split
        · exact (keepsSize_setFreeing x).bind fun _ => ih _
        · exact ih queue

/-- A drain that is given as many rounds as there are live objects does not need another one. -/
theorem drain_succ {rounds : Nat} {queue : List ObjectId} (enough : s.memory.heap.size ≤ rounds) :
    drain (rounds + 1) queue s = drain rounds queue s := by
  induction rounds generalizing s queue with
  | zero =>
    -- nothing is live, so nothing is left of the queue
    have settled : (settle s.memory.heap queue).2 = [] := by
      cases left : (settle s.memory.heap queue).2 with
      | nil => rfl
      | cons x rest =>
        obtain ⟨o, ho, -⟩ := settle_head s.memory.heap queue x rest left
        have := Heap.size_pos ho
        rw [settle_size] at this
        omega
    simp only [drain, bind_apply, heap_apply, setHeap_apply, pure_apply, settled]
  | succ rounds ih =>
    rw [drain, drain]
    simp only [bind_apply, heap_apply]
    have size := settle_size s.memory.heap queue
    generalize settle s.memory.heap queue = left at size
    obtain ⟨h, queue'⟩ := left
    cases queue' with
    | nil => rfl
    | cons x rest =>
      simp only [setHeap_apply]
      cases hx : h.get? x with
      | none => rfl
      | some o =>
        simp only []
        split
        · rfl
        -- the round that is left frees the object, so there is one object less for the others
        · refine bind_congr rfl fun _ s₁ cleared => bind_congr rfl fun queue₁ s₂ surrendered =>
            bind_congr rfl fun _ s₃ destroyed => ?_
          cases cleared
          have taken := size_of_destroy destroyed
          have kept := (keepsSize_surrender _ _).of_ok surrendered
          have size : h.size = s.memory.heap.size := size
          have size' : s₂.memory.heap.size = h.size := kept.trans (Heap.size_put hx _)
          exact ih (by omega)

theorem drain_of_size_le {rounds : Nat} (enough : s.memory.heap.size ≤ rounds)
    (queue : List ObjectId) : drain rounds queue s = drain s.memory.heap.size queue s := by
  induction rounds, enough using Nat.le_induction with
  | base => rfl
  | succ rounds le ih => rw [drain_succ le, ih]

end Release

/-! ## Passes that become due -/

namespace Pass

variable {hooks : PassHooks} {g : Generation}

/-- A pass makes no other pass due than one over the next older generation. -/
theorem older_of_due {outcome : PassOutcome} {older : Generation}
    (ran : run hooks g s = .ok outcome s') (due : outcome.due = some older) :
    g.older? = some older := by
  have began (s : Machine) : modifyCollector ({ · with collecting := true }) s =
      .ok () (s.mapCollector ({ · with collecting := true })) := rfl
  simp only [run, bind_apply, began, attempt_apply, modifyCollector_apply] at ran
  cases went : body hooks g (s.mapCollector ({ · with collecting := true })) with
  | error e s₁ =>
    rw [went] at ran
    cases ran
  | ok outcome' s₁ =>
    rw [went] at ran
    cases ran
    obtain ⟨c, s₂, -, went⟩ := exists_of_bind went
    obtain ⟨result, s₃, -, went⟩ := exists_of_bind went
    obtain ⟨due', s₄, booked, went⟩ := exists_of_bind went
    rw [due_of_aftermath went] at due
    subst due
    cases hc : s₃.memory.collector with
    | none =>
      simp only [book, bind_apply, collector_of_none hc] at booked
      cases booked
    | some c' =>
      rw [book_apply hc, EStateM.Result.ok.injEq, Memory.due_passCompleted] at booked
      exact (Option.filter_eq_some_iff.mp booked.1).1

theorem runDue_succ {rounds : Nat} (enough : 3 ≤ rounds + g.val) :
    runDue (run hooks) (rounds + 1) g = runDue (run hooks) rounds g := by
  induction rounds generalizing g with
  | zero => exact absurd enough (by have := g.isLt; omega)
  | succ rounds ih =>
    funext s
    rw [runDue, runDue, bind_apply, bind_apply]
    cases ran : run hooks g s with
    | error e s' => rfl
    | ok outcome s' =>
      cases due : outcome.due with
      | none => simp only [due]
      | some older =>
        have next := older_of_due ran due
        simp only [due]
        have later : older.val = g.val + 1 := Generation.older?_eq_some_iff.mp next
        rw [ih (by omega)]

/-- More rounds than there are generations make no difference. -/
theorem runDue_of_le {rounds : Nat} (enough : 3 ≤ rounds) (g : Generation) :
    runDue (run hooks) rounds g = runDue (run hooks) 3 g := by
  induction rounds, enough using Nat.le_induction with
  | base => rfl
  | succ rounds le ih => rw [runDue_succ (Nat.le_add_right_of_le le), ih]

end Pass

/-! ## The finalizers that are left -/

/-- The finalizers that are pending on live objects, each counted together with those that
instructions inside of its script install, to any depth. -/
def Heap.pendingScripts (h : Heap) : Nat :=
  (h.toList.map fun o => o.pendingFinalizer?.elim 0 (1 + Script.installs ·)).sum

namespace Machine

/-- A finalizer that is entered is one less that is left, and nothing adds to these. -/
theorem Step.finalized_add_unspent_le (step : Step sc (L, s) (L', s')) (S : s.memory.Sound sc L) :
    (finalized s'.journal).length + s'.memory.heap.unspent sc ≤
      (finalized s.journal).length + s.memory.heap.unspent sc := by
  have fewer : s'.memory.heap.unspent sc ≤ s.memory.heap.unspent sc := step.later.unspent_le
  rcases step.journal_inv with same | ⟨event, note, rfl⟩ | ⟨x, o, script, hx, pending, rfl⟩ |
    ⟨x, o, m', -, rfl⟩
  · rw [same]
    omega
  · have silent : event.finalizes? = none := by cases event <;> first | rfl | cases note
    have same : finalized (s.log event).journal = finalized s.journal :=
      finalized_cons_of_note silent
    rw [same]
    omega
  · have one : finalized ((s.withHeap (s.memory.heap.put x o.markFinalized)).log
        (.finalizing x)).journal = x :: finalized s.journal :=
      finalized_cons (m := ⟨.finalizing x, _⟩) rfl
    obtain ⟨name, -⟩ := S.within.pending hx pending
    have less := Heap.unspent_lt step.later name (Heap.not_isSpent_of_pending hx pending)
      (Heap.isSpent_markFinalized (S.balanced.keyed hx).2.2)
    rw [one, List.length_cons]
    omega
  · have same : finalized ((s.log (.freeing x)).withMemory m').journal = finalized s.journal :=
      finalized_cons_of_note (m := ⟨.freeing x, _⟩) rfl
    rw [same]
    omega

/-- A run enters no more finalizers than were left at its start. -/
theorem Steps.finalized_add_unspent_le {a b : Loose × Machine} (steps : Steps sc a b)
    (S : a.2.memory.Sound sc a.1) :
    (finalized b.2.journal).length + b.2.memory.heap.unspent sc ≤
      (finalized a.2.journal).length + a.2.memory.heap.unspent sc := by
  induction steps with
  | refl => exact Nat.le_refl _
  | tail steps step ih => exact (step.finalized_add_unspent_le (Steps.sound steps S)).trans ih

end Machine

/-- Without callbacks the budget of an operation is made up of pending finalizers. -/
theorem Memory.finalizerBudget_eq {m : Memory} (silent : m.collector.elim [] (·.callbacks) = []) :
    m.finalizerBudget = m.heap.pendingScripts := by
  have objects (xs : List Object) : xs.foldl (fun n o => n + o.pendingFinalizer?.elim 0
      (1 + Script.installs ·)) 0 =
        (xs.map fun o => o.pendingFinalizer?.elim 0 (1 + Script.installs ·)).sum := by
    rw [List.sum_eq_foldl, List.foldl_map]
  have callbacks : (m.collector.elim 0 fun c =>
      c.callbacks.foldl (· + Script.installs ·.script) 0) = 0 := by
    cases hc : m.collector with
    | none => rfl
    | some c =>
      rw [hc, Option.elim_some] at silent
      rw [Option.elim_some, silent]
      rfl
  unfold finalizerBudget Heap.pendingScripts
  dsimp only
  rw [objects, callbacks, Nat.add_zero]

namespace Machine

/-- Every call of a host comes to its end, whatever finalizers do. Let no callbacks be registered on
an attained machine. The budget that a call is given, which is the number of pending finalizers,
each counted together with those that its script installs, is enough: with any larger one the call
does the same, so that nothing is cut short, and no more finalizers are entered than that. Every
object is whole afterwards. The loops that run no finalizer need no more rounds than they are
given. -/
theorem Attained.call_finishes (run : Attained s) (silent : s.callbacks = []) (c : Call) :
    (∀ n, s.memory.heap.pendingScripts ≤ n → Host.perform (.outside n) 0 (.call c) s.forget =
      Host.perform (.outside s.memory.heap.pendingScripts) 0 (.call c) s.forget) ∧
    (s.perform (.call c)).2.starved = false ∧
    (s.perform (.call c)).2.memory.heap.Consistent ∧
    (finalized (s.perform (.call c)).1.moments).length ≤ s.memory.heap.pendingScripts ∧
    (∀ (t : Machine) rounds queue, t.memory.heap.size ≤ rounds →
      Release.drain rounds queue t = Release.drain t.memory.heap.size queue t) ∧
    ∀ hooks rounds g, 3 ≤ rounds →
      Pass.runDue (Pass.run hooks) rounds g = Pass.runDue (Pass.run hooks) 3 g := by
  have budget : s.memory.finalizerBudget + Op.installs (.call c) = s.memory.heap.pendingScripts :=
    Memory.finalizerBudget_eq silent
  have settled := run.settled
  have host : Op.isHostOp (.call c) = true := rfl
  have leads := perform_leads_scope settled host
  have starved : (s.perform (.call c)).2.starved = false :=
    (run.perform rfl).starved
  refine ⟨fun n le => ?_, starved, (run.perform rfl).settled.consistent, ?_,
    fun t rounds queue le => Release.drain_of_size_le le queue,
    fun hooks rounds g le => Pass.runDue_of_le le g⟩
  · rcases (Host.perform_extends (Hooks.outside_extends le) 0 (.call c)).same s.forget with
      cut | same
    · rw [← budget] at cut
      have cut' : (s.perform (.call c)).2.starved = true := perform_of_always cut
      rw [starved] at cut'
      cases cut'
    · exact same
  · have entered := leads.steps.finalized_add_unspent_le
      (Memory.Settled.at (s := s.forget) settled (settled.within (.call c))).sound
    have few := s.memory.unspent_le_budget (.call c)
    have none : finalized s.forget.journal = [] := rfl
    rw [none, List.length_nil, Nat.zero_add] at entered
    rw [moments_eq, finalized, List.filterMap_reverse, List.length_reverse]
    exact (Nat.le_of_add_right_le entered).trans (budget ▸ few)

/-- Two objects that the host holds. The finalizer of the first one gives the second one a
finalizer, which allocates and collects, and then lets go of it. -/
def relay : Machine :=
  (performAll {} [.raw (.attach {}), .call (.allocate .container "node"),
    .call (.allocate .container "node"),
    .setFinalizer (.id 1) [
      ⟨.setFinalizer (.id 2) [⟨.call (.allocate .container "node"), false⟩,
        ⟨.call (.collect 2), true⟩], false⟩,
      ⟨.call (.release (.id 2)), false⟩]]).2

/-- One finalizer is pending and installs another one; both are run. -/
theorem call_finishes_relay :
    relay.memory.heap.pendingScripts = 2 ∧
      (∀ n, 2 ≤ n → Host.perform (.outside n) 0 (.call (.release (.id 1))) relay.forget =
        Host.perform (.outside 2) 0 (.call (.release (.id 1))) relay.forget) ∧
      (relay.perform (.call (.release (.id 1)))).2.starved = false ∧
      finalized (relay.perform (.call (.release (.id 1)))).1.moments = [1, 2] := by
  have attained : Attained relay := Attained.performAll (.start none rfl) rfl
  have unregistered : relay.callbacks.isEmpty = true := by decide +kernel
  have two : relay.memory.heap.pendingScripts = 2 := by decide +kernel
  obtain ⟨same, whole, -⟩ :=
    attained.call_finishes (List.isEmpty_iff.mp unregistered) (.release (.id 1))
  rw [two] at same
  exact ⟨two, same, whole, by decide +kernel⟩

end Machine

end Reclaim
