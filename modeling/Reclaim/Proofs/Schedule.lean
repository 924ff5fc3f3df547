import Reclaim.Proofs.CountingLaw
import Reclaim.Proofs.Pace

/-!
# The schedule of automatic passes

An allocation that finds a pass due runs one over the youngest generation, and then passes over the
older ones as they become due in turn. As long as nothing else starts passes and the thresholds stay
what they are, the passes over a generation are divided up among those over the next older one:
every so many of them there is one, and what is left over is the count (`Pace.OnTime`). In between,
a pass is due whose generation has just reached its threshold (`Pace.Ripe`); one pass leads from
there to the next one, or back on time (`Pace.Ripe.pass`).

Hooks outside of passes are sound wherever they are entered, so that the passes they start succeed
and run until nothing is due (`Pass.runDue_paces`). Hence the schedule is kept after every operation
of a run that nothing upsets (`Machine.Attained.frequency`).
-/

set_option autoImplicit false

namespace Reclaim

open Machine

variable {t : Thresholds} {I J : Pace → Prop} {sc : Scope} {n : Nat} {L : Loose}
  {Q : ObjectId → Prop} {s s' : Machine} {x : ObjectId} {op : Op} {g i : Generation} {p : Pace}

theorem Generation.older?_eq_some_iff : ∀ {g i : Generation},
    g.older? = some i ↔ i.val = g.val + 1 := by
  decide

namespace Pace

/-- The passes over a generation are divided up among those over the next older one, but for those
that are counted since, and the statistics count the same passes. -/
structure Divided (t : Thresholds) (p : Pace) : Prop where
  thresholds : p.thresholds = t
  divides : ∀ {g i : Generation}, g.older? = some i →
    p.books.collections.get g = t.get i * p.books.collections.get i + p.counts i
  noted : ∀ g : Generation, (p.books.stats.get g).collections = p.books.collections.get g

/-- No pass over an older generation is due. -/
structure OnTime (t : Thresholds) (p : Pace) : Prop extends p.Divided t where
  early : ∀ g, p.counts g < t.get g

/-- In a row of passes the next one is a pass over `g`. -/
structure Ripe (t : Thresholds) (g : Generation) (p : Pace) : Prop extends p.Divided t where
  covered : ∀ i < g, p.counts i = 0
  reached : g ≠ .youngest → p.counts g = t.get g
  early : ∀ i, g < i → p.counts i < t.get i

/-- The passes over a generation are shared out among those over the next older one. -/
theorem OnTime.shares (on : p.OnTime t) (older : g.older? = some i) :
    p.books.collections.get i = p.books.collections.get g / t.get i ∧
      p.counts i = p.books.collections.get g % t.get i := by
  obtain ⟨quotient, rest⟩ := (Nat.div_mod_unique (t.positive i)).mpr
    ⟨(Nat.add_comm _ _).trans (on.divides older).symm, on.early i⟩
  exact ⟨quotient.symm, rest.symm⟩

/-- A row of passes begins with the youngest generation. -/
theorem OnTime.ripe (on : p.OnTime t) : p.Ripe t .youngest where
  toDivided := on.toDivided
  covered i lt := absurd lt (Fin.not_lt_zero i)
  reached ne := absurd rfl ne
  early i _ := on.early i

/-- What holds in a row of passes whose next one is over `due`, if any is, and after the last. -/
def Next (t : Thresholds) : Option Generation → Pace → Prop
  | none => OnTime t
  | some g => Ripe t g

theorem Next.thresholds {due : Option Generation} (next : Next t due p) : p.thresholds = t := by
  cases due with
  | none => exact (OnTime.toDivided next).thresholds
  | some g => exact (Ripe.toDivided next).thresholds

/-- The next pass is divided up as those before. -/
theorem Ripe.divided_pass (ripe : p.Ripe t g) (collected uncollectable : Nat) :
    (p.pass g collected uncollectable).Divided t where
  thresholds := ripe.thresholds
  divides {g' i} older := by
    have law := ripe.divides older
    have next := Generation.older?_eq_some_iff.mp older
    show (p.books.collections.update g (· + 1)).get g' =
      t.get i * (p.books.collections.update g (· + 1)).get i +
        if i ≤ g then 0 else if g.older? = some i then p.counts i + 1 else p.counts i
    rw [PerGeneration.get_update, PerGeneration.get_update]
    rcases Nat.lt_trichotomy i.val g.val with below | same | above
    -- a younger generation has been passed over before, and nothing is counted for it since
    · have covered := ripe.covered i below
      have elsewhere : g ≠ g' := Fin.ne_of_val_ne (by omega)
      have apart : g ≠ i := Fin.ne_of_val_ne (by omega)
      rw [if_neg elsewhere, if_neg apart, if_pos (Fin.le_def.mpr below.le)]
      rwa [covered] at law
    -- the pass is the one that the threshold has been reached for
    · obtain rfl := Fin.ext same
      have reached := ripe.reached (by rintro rfl; cases next)
      have elsewhere : i ≠ g' := Fin.ne_of_val_ne (by omega)
      rw [if_neg elsewhere, if_pos rfl, if_pos (le_refl i), Nat.mul_succ, Nat.add_zero]
      rwa [reached] at law
    -- the pass is counted just if it is over the next younger generation
    · have apart : g ≠ i := Fin.ne_of_val_ne (by omega)
      rw [if_neg apart, if_neg (fun le => Nat.not_lt_of_le (Fin.le_def.mp le) above)]
      by_cases here : g = g'
      · subst here
        rw [if_pos rfl, if_pos older, law, Nat.add_assoc]
      · have elsewhere : g.older? ≠ some i := fun older' => by
          have := Generation.older?_eq_some_iff.mp older'
          exact here (Fin.ext (by omega))
        rw [if_neg here, if_neg elsewhere, law]
  noted i := by
    show ((p.books.stats.update g _).get i).collections =
      (p.books.collections.update g _).get i
    rw [PerGeneration.get_update, PerGeneration.get_update]
    split
    · exact congrArg (· + 1) (ripe.noted g)
    · exact ripe.noted i

/-- After a pass in a row the next one is over the generation that is due; if none is due, the row
is at its end. -/
theorem Ripe.pass (ripe : p.Ripe t g) (collected uncollectable : Nat) :
    Next t ((p.pass g collected uncollectable).due g) (p.pass g collected uncollectable) := by
  have divided := ripe.divided_pass collected uncollectable
  have counts (i : Generation) : (p.pass g collected uncollectable).counts i =
      if i ≤ g then 0 else if g.older? = some i then p.counts i + 1 else p.counts i := rfl
  generalize p.pass g collected uncollectable = p' at divided counts ⊢
  -- what has been looked at is early, and so is what has not been counted for
  have early (i : Generation) (uncounted : g.older? ≠ some i) : p'.counts i < t.get i := by
    rw [counts, if_neg uncounted]
    split
    · exact t.positive i
    · next above => exact ripe.early i (not_le.mp above)
  cases due : p'.due g with
  | none =>
    refine ⟨divided, fun i => ?_⟩
    by_cases counted : g.older? = some i
    · have notDue := (Option.filter_eq_none_iff.mp due) i counted
      rw [divided.thresholds] at notDue
      simpa using notDue
    · exact early i counted
  | some i =>
    obtain ⟨counted, full⟩ := Option.filter_eq_some_iff.mp due
    rw [divided.thresholds] at full
    have next := Generation.older?_eq_some_iff.mp counted
    refine ⟨divided, fun j lt => ?_, fun _ => ?_, fun j lt => ?_⟩
    · rw [counts, if_pos (Fin.le_def.mpr (by have := Fin.lt_def.mp lt; omega))]
    -- it was early before the pass, and one more has been counted
    · refine Nat.le_antisymm ?_ (of_decide_eq_true full)
      rw [counts, if_neg (fun le => by have := Fin.le_def.mp le; omega), if_pos counted]
      exact ripe.early i (Fin.lt_def.mpr (by omega))
    · exact early j (fun older => by
        have := Fin.lt_def.mp lt
        have := Generation.older?_eq_some_iff.mp older
        omega)

end Pace

open Act

/-! ## Passes -/

namespace Pass

variable {hooks : PassHooks} {c : Collector}

/-- A pass is entered into the books between what its hooks do before and after. -/
theorem Course.paces (k : Course sc L Q hooks g s)
    (steady : ∀ {I : Pace → Prop}, (∀ p, I p → p.thresholds = t) →
      hooks.Upholds (Machine.Paces t I I))
    (hc : k.collection.after.memory.collector = some c) :
    (∀ i, k.outcome.due = some i → g.older? = some i) ∧
      s.Paces t (Pace.Ripe t g) (Pace.Next t k.outcome.due) k.ended := by
  have closed := k.closing_eq
  obtain ⟨due, booked, book, closed⟩ := exists_of_bind closed
  rw [book_apply hc] at book
  cases book
  have due := due_of_aftermath closed
  rw [Memory.due_passCompleted] at due
  have before : s.Paces t (Pace.Ripe t g) (Pace.Ripe t g) k.collection.after :=
    have H := steady fun p (ripe : p.Ripe t g) => ripe.thresholds
    ((lasting_paces.opening H g).of_ok k.opening_eq).trans
      ((lasting_paces.collectCycles H.finalization _ _ _).of_ok k.collection.collect_eq)
  have books : k.collection.after.Paces t (Pace.Ripe t g) (Pace.Next t k.outcome.due)
      (k.collection.after.withMemory (k.collection.after.memory.book c g
        (options k.collector.debug).saveGarbage k.collection.report)) := by
    refine ⟨List.Subset.refl _, fun _ ⟨p, hp, ripe⟩ => ⟨_, Memory.pace?_book hc _ _ _, ?_⟩⟩
    rw [Memory.pace?, hc, Option.map_some, Option.some.injEq] at hp
    rw [due, hp]
    exact ripe.pass _ _
  have H := steady fun p (next : Pace.Next t k.outcome.due p) => next.thresholds
  refine ⟨fun i e => ?_, (before.trans books).trans
    ((lasting_paces.aftermath H g _ _).of_ok closed)⟩
  rw [due] at e
  exact (Option.filter_eq_some_iff.mp e).1

/-- A pass in a row leads to the next one. -/
theorem run_paces (P : hooks.Sound sc n)
    (steady : ∀ {I : Pace → Prop}, (∀ p, I p → p.thresholds = t) →
      hooks.Upholds (Machine.Paces t I I))
    (A : At sc false L Q s) (hn : s.memory.heap.unspent sc ≤ n) (hc : s.memory.collector = some c)
    (g : Generation) :
    ∃ outcome s', run hooks g s = .ok outcome s' ∧ Leads sc false L s L Q s' ∧
      (∀ i, outcome.due = some i → g.older? = some i) ∧
      s.Paces t (Pace.Ripe t g) (Pace.Next t outcome.due) s' := by
  obtain ⟨outcome, s', done, leads, -⟩ := run_leads (g := g) P A hn hc
  have began := A.mark hc true
  obtain ⟨k⟩ := body_course P began.there (Nat.le_trans began.unspent_le hn)
    (congrArg (Option.map _) hc) g
  cases (run_of_body k.body_eq).symm.trans done
  obtain ⟨c', hc'⟩ := (began.trans k.collects).exists_collector hc
  obtain ⟨older, paces⟩ := k.paces steady hc'
  have mark (s : Machine) (value : Bool) {I : Pace → Prop} :
      s.Paces t I I (s.mapCollector ({ · with collecting := value })) :=
    (lasting_paces.modifyCollector (f := ({ · with collecting := value })) fun _ => rfl).of_ok rfl
  exact ⟨_, _, done, leads, older, ((mark s true).trans paces).trans (mark _ false)⟩

/-- The passes in a row lead back to where no pass over an older generation is due. -/
theorem runDue_paces (P : hooks.Sound sc n)
    (steady : ∀ {I : Pace → Prop}, (∀ p, I p → p.thresholds = t) →
      hooks.Upholds (Machine.Paces t I I))
    {rounds : Nat} (A : At sc false L Q s) (hn : s.memory.heap.unspent sc ≤ n)
    (hc : s.memory.collector = some c) (enough : 3 ≤ rounds + g.val) :
    ∃ s', runDue (run hooks) rounds g s = .ok () s' ∧
      s.Paces t (Pace.Ripe t g) (Pace.OnTime t) s' := by
  -- each round is for a generation that is older than the one before
  induction rounds generalizing s g c with
  | zero =>
    have := g.isLt
    omega
  | succ rounds ih =>
    obtain ⟨outcome, s₁, run₁, leads, older, paces⟩ := run_paces P steady A hn hc g
    cases due : outcome.due with
    | none =>
      rw [due] at paces
      refine ⟨s₁, ?_, paces⟩
      simp only [runDue, bind_apply, run₁, due, pure_apply]
    | some i =>
      rw [due] at paces
      have next := Generation.older?_eq_some_iff.mp (older i due)
      obtain ⟨c₁, hc₁⟩ := leads.exists_collector hc
      obtain ⟨s', run, rest⟩ := ih leads.there (Nat.le_trans leads.unspent_le hn) hc₁
        (g := i) (by omega)
      refine ⟨s', ?_, paces.trans rest⟩
      simp only [runDue, bind_apply, run₁, due, run]

end Pass

/-! ## Hooks outside of passes -/

/-- If no pass over an older generation is due, none is afterwards, unless a step upsets the run. -/
abbrev Machine.KeepsTime (t : Thresholds) (s s' : Machine) : Prop :=
  s.Paces t (Pace.OnTime t) (Pace.OnTime t) s'

/-- Whatever its outcome, the action takes steps and keeps the schedule. -/
def Act.Timely {α : Type} (t : Thresholds) (sc : Scope) (n : Nat) (self : ObjectId)
    (act : Act α) : Prop :=
  ∀ L Q s, At sc false L Q s → s.memory.heap.unspent sc ≤ n → s.memory.heap.isSpent self = true →
    act.Always s fun s' => Leads sc false L s L Q s' ∧ s.KeepsTime t s'

/-- Finalizers outside of passes keep the schedule. -/
def Finalization.Timely (t : Thresholds) (sc : Scope) (n : Nat) (fin : Finalization) : Prop :=
  ∀ {L Q s self script}, At sc false L Q s → s.memory.heap.unspent sc < n →
    s.memory.heap.isSpent self = true → sc.hooks script →
    (fin.run self script).Always s (s.KeepsTime t)

/-- The hooks outside of passes keep the schedule. -/
structure Hooks.Timely (t : Thresholds) (sc : Scope) (n : Nat) (hooks : Hooks) : Prop where
  sound : hooks.Sound sc false n
  finalization : hooks.finalization.Timely t sc n
  pass : ∀ {pass}, hooks.pass? = some pass → ∀ {I : Pace → Prop},
    (∀ p, I p → p.thresholds = t) → pass.Upholds (Machine.Paces t I I)

namespace Act

variable {α β : Type} {act : Act α} {f : α → Act β} {self : ObjectId}

theorem Safe.timely (safe : Safe sc false n self act)
    (paces : ∀ {L Q s}, At sc false L Q s → s.memory.heap.unspent sc ≤ n →
      act.Always s (s.KeepsTime t)) :
    act.Timely t sc n self :=
  fun L Q s A hn spent => (safe L Q s A hn spent).and (paces A hn)

theorem Timely.bind (timely : act.Timely t sc n self) (next : ∀ a, (f a).Timely t sc n self) :
    (act >>= f).Timely t sc n self := by
  intro L Q s A hn spent
  refine Always.bind (timely L Q s A hn spent) (fun a s' _ ⟨leads, paces⟩ => ?_)
    fun _ _ _ after => after
  have later := (Steps.later leads.steps).isSpent spent
  exact (next a L Q s' leads.there (Nat.le_trans leads.unspent_le hn) later).mono
    fun _ ⟨leads', paces'⟩ => ⟨leads.trans leads', paces.trans paces'⟩

theorem Still.timely (still : Still act) : act.Timely t sc n self :=
  still.safe.timely fun _ _ => lasting_paces.still still _

theorem Timely.answer (timely : act.Timely t sc n self) (g : α → β) :
    (act >>= fun a => pure (g a)).Timely t sc n self :=
  timely.bind fun a => (still_pure (g a)).timely

theorem Timely.forM {g : α → Act Unit} (timely : ∀ a, (g a).Timely t sc n self) (xs : List α) :
    (xs.forM g).Timely t sc n self := by
  induction xs with
  | nil => exact (still_pure ()).timely
  | cons a xs ih => exact (timely a).bind fun _ => ih

end Act

namespace Release

variable {fin : Finalization} {o : Object} {script : Script}

theorem runFinalizer_paces (F : fin.Timely t sc n) (A : At sc false L Q s)
    (hn : s.memory.heap.unspent sc ≤ n) (hx : s.memory.heap.get? x = some o)
    (pending : o.pendingFinalizer? = some script) :
    (runFinalizer fin x).Always s (s.KeepsTime t) := by
  obtain ⟨enters, fewer, spent, hook⟩ := entered_leads A hx pending
  obtain ⟨outcome, s', ran, paces⟩ :=
    attempt_of_always (F enters.there (Nat.lt_of_lt_of_le fewer hn) spent hook)
  have entering : s.KeepsTime t (entered s x o) := .of_same (List.subset_cons_self _ _) rfl
  refine always_of_ok (runFinalizer_apply hx pending ran) ?_
  cases outcome with
  | ok _ => exact entering.trans paces
  | error fault => exact (entering.trans paces).trans ((lasting_paces.post _).of_ok rfl)

theorem finalizeBeforeFree_paces (F : fin.Timely t sc n) {queue : List ObjectId}
    (A : At sc false L (fun y => Q y ∨ y = x ∨ y ∈ queue) s) (hn : s.memory.heap.unspent sc ≤ n)
    (hx : s.memory.heap.get? x = some o) (pending : o.pendingFinalizer? = some script) :
    (finalizeBeforeFree fin x).Always s (s.KeepsTime t) := by
  have held := hold_leads A hx
  have holding : s.KeepsTime t
      (s.withHeap (s.memory.heap.put x { o.incRef with freeing := false })) :=
    (lasting_paces.setHeap _).of_ok rfl
  have hx' : (s.withHeap (s.memory.heap.put x
      { o.incRef with freeing := false })).memory.heap.get? x =
      some { o.incRef with freeing := false } := by
    rw [withHeap_heap, Heap.get?_put, if_pos rfl]
  have ran := runFinalizer_paces F held.there (Nat.le_trans held.unspent_le hn) hx' pending
  -- what follows the finalizer sets off no other hook
  refine Always.of_eq (finalizeBeforeFree_apply hx) ?_
  exact Always.bind ran (fun _ s' _ paces => (lasting_paces.afterFinalizer x s').mono fun _ =>
    (holding.trans paces).trans) fun _ _ _ => holding.trans

/-- A cascade keeps the schedule, since what is drained runs no hooks and finalizers keep it. -/
theorem cascade_paces (S : fin.Sound sc false n) (F : fin.Timely t sc n) (rounds : Nat)
    {queue : List ObjectId} (A : At sc false L (fun y => Q y ∨ y ∈ queue) s)
    (hn : s.memory.heap.unspent sc ≤ n) :
    (cascade fin rounds queue).Always s (s.KeepsTime t) := by
  induction rounds generalizing queue s with
  | zero => exact lasting_paces.starve s
  | succ rounds ih =>
    obtain ⟨s₁, ⟨run, leads⟩ | ⟨x, queue', o, script, run, leads, hx, pending⟩⟩ :=
      drain_leads A (Nat.le_refl _)
    · refine always_of_ok (a := ()) ?_ ((lasting_paces.drain _ _).of_ok run)
      simp only [cascade, bind_apply, heap_apply, run, pure_apply]
    · have drained : s.KeepsTime t s₁ := (lasting_paces.drain _ _).of_ok run
      have hn₁ := Nat.le_trans leads.unspent_le hn
      obtain ⟨dies, s₂, run₂, leads₂, -⟩ := finalizeBeforeFree_leads S leads.there hn₁ hx pending
      have finalized := finalizeBeforeFree_paces F leads.there hn₁ hx pending
      unfold Always at finalized
      rw [run₂] at finalized
      have rest := ih leads₂.there (Nat.le_trans leads₂.unspent_le hn₁)
      refine Always.of_eq ?_ (rest.mono fun _ => (drained.trans finalized).trans)
      simp only [cascade, bind_apply, heap_apply, run, run₂]
      cases dies <;> rfl

theorem dropReference_paces (S : fin.Sound sc false n) (F : fin.Timely t sc n)
    (A : At sc false (L.add [x]) Q s) (hn : s.memory.heap.unspent sc ≤ n) :
    (dropReference fin x).Always s (s.KeepsTime t) := by
  obtain ⟨o, k, hx, hk⟩ := A.exists_of_loose
  have counted : s.KeepsTime t (s.withHeap (s.memory.heap.put x o.lose)) :=
    (lasting_paces.setHeap _).of_ok rfl
  cases k with
  | zero =>
    have lost : Leads sc false (L.add [x]) s L (fun y => Q y ∨ y ∈ [x])
        (s.withHeap (s.memory.heap.put x o.lose)) := (A.mono fun _ => .inl).lose_last hx
    have rest := cascade_paces S F (fin.limit + 1) lost.there
      (Nat.le_trans lost.unspent_le hn)
    refine Always.of_eq ?_ (rest.mono fun _ => counted.trans)
    simp only [dropReference, bind_apply, decRef_apply hx hk, gt_iff_lt, Nat.lt_irrefl, if_false,
      setFreeing_after_decRef s hk]
  | succ k =>
    have same : o.lose = { o with strongCount := k + 1 } := by simp [Object.lose, hk]
    refine always_of_ok (a := ()) ?_ counted
    rw [dropReference_of_more hx hk, same]

end Release

namespace Host

variable {hooks : Hooks} {self y : ObjectId}

/-- An allocation that finds a pass due starts the passes in a row. -/
theorem afterAllocation_paces (H : hooks.Timely t sc n) (may : sc.may .collect)
    (A : At sc false L Q s) (hn : s.memory.heap.unspent sc ≤ n) :
    (afterAllocation hooks s.memory).Always s (s.KeepsTime t) := by
  unfold afterAllocation
  split
  · next wants =>
    obtain ⟨c, hc, -⟩ := (Option.any_eq_true _ _).mp wants
    obtain ⟨pass, hpass, P⟩ := H.sound.pass rfl may
    obtain ⟨s', run, paces⟩ := Pass.runDue_paces (g := .youngest) P (H.pass hpass) A hn hc
      (Nat.le_refl (3 + 0))
    rw [hpass]
    exact always_of_ok run ⟨paces.journal, fun calm ⟨p, hp, on⟩ => paces.goes calm ⟨p, hp, on.ripe⟩⟩
  · exact Machine.Paces.refl s

theorem allocate_timely (H : hooks.Timely t sc n)
    (may : ∀ {deed}, deed ∈ [Deed.allocate, .collect] → sc.may deed) (kind : Kind)
    (typeName : String) : (allocate hooks kind typeName).Timely t sc n self := by
  refine (allocate_safe H.sound may kind typeName).timely fun {L Q s} A hn => ?_
  have inserted := insert_leads (may (by simp)) A kind typeName
  have passes := afterAllocation_paces H (may (by simp)) inserted.there
    (Nat.le_trans inserted.unspent_le hn)
  refine Always.of_eq (allocate_apply hooks kind typeName s) ?_
  exact Always.bind passes (fun _ _ _ => (lasting_paces.insert s kind typeName).trans)
    fun _ _ _ => (lasting_paces.insert s kind typeName).trans

theorem release_timely (H : hooks.Timely t sc n) (may : sc.may .giveUp) :
    (release hooks x).Timely t sc n self := by
  refine (release_safe H.sound may).timely fun {L Q s} A hn => ?_
  cases run : s.memory.heap.giveUpRoot x with
  | ok h' =>
    have given : Leads sc false L s (L.add [x]) Q (s.withHeap h') :=
      A.edit (.giveUpRoot may run) (A.freeing.giveUpRoot run)
        (Heap.map_get?_giveUpRoot run fun _ _ => rfl)
    have dropped := Release.dropReference_paces H.sound.finalization H.finalization given.there
      (Nat.le_trans given.unspent_le hn)
    exact Always.of_eq (release_of_ok run)
      (dropped.mono fun _ => ((lasting_paces.setHeap h').of_ok rfl).trans)
  | error e => exact always_of_error (release_of_error run) (.refl s)

theorem removeEdge_timely (H : hooks.Timely t sc n) (may : sc.may .cut) :
    (removeEdge hooks x y).Timely t sc n self := by
  refine (removeEdge_safe H.sound may).timely fun {L Q s} A hn => ?_
  cases run : s.memory.heap.cut x y with
  | ok h' =>
    have given : Leads sc false L s (L.add [y]) Q (s.withHeap h') :=
      A.edit (.cut may run) (A.freeing.cut run) (Heap.map_get?_cut run fun _ _ => rfl)
    have dropped := Release.dropReference_paces H.sound.finalization H.finalization given.there
      (Nat.le_trans given.unspent_le hn)
    exact Always.of_eq (removeEdge_of_ok run)
      (dropped.mono fun _ => ((lasting_paces.setHeap h').of_ok rfl).trans)
  | error e => exact always_of_error (removeEdge_of_error run) (.refl s)

theorem addEdge_timely (may : sc.may .link) : (addEdge x y).Timely t sc n self :=
  (addEdge_safe may).timely fun _ _ => lasting_paces.edit _ _

theorem allocateMany_timely (H : hooks.Timely t sc n)
    (may : ∀ {deed}, deed ∈ [Deed.allocate, .collect] → sc.may deed) (kind : Kind)
    (last : ObjectId) (count : Nat) :
    (allocateMany hooks kind last count).Timely t sc n self := by
  induction count generalizing last with
  | zero => exact (still_pure last).timely
  | succ count ih => exact (allocate_timely H may kind plainTypeName).bind ih

theorem extendChain_timely (H : hooks.Timely t sc n)
    (may : ∀ {deed}, deed ∈ [Deed.allocate, .collect, .link, .giveUp] → sc.may deed)
    (last : ObjectId) (count : Nat) : (extendChain hooks last count).Timely t sc n self := by
  have allocating {deed : Deed} (mem : deed ∈ [Deed.allocate, .collect]) : sc.may deed :=
    may (List.mem_append_left [Deed.link, .giveUp] mem)
  induction count generalizing last with
  | zero => exact (still_pure last).timely
  | succ count ih =>
    exact (allocate_timely H allocating _ _).bind fun next =>
      ((addEdge_timely (may (by simp))).bind fun _ => release_timely H (may (by simp))).bind
        fun _ => ih next

theorem chain_timely (H : hooks.Timely t sc n)
    (may : ∀ {deed}, deed ∈ [Deed.allocate, .collect, .link, .giveUp] → sc.may deed) (length : Nat)
    (close : Bool) : (chain hooks length close).Timely t sc n self := by
  have allocating {deed : Deed} (mem : deed ∈ [Deed.allocate, .collect]) : sc.may deed :=
    may (List.mem_append_left [Deed.link, .giveUp] mem)
  refine (allocate_timely H allocating _ _).bind fun head =>
    (extendChain_timely H may head (length - 1)).bind fun last => ?_
  cases close with
  | true => exact (addEdge_timely (may (by simp))).bind fun _ => (still_pure head).timely
  | false => exact (still_pure head).timely

theorem clearGarbage_timely (H : hooks.Timely t sc n)
    (may : ∀ {deed}, deed ∈ [Deed.disown, .giveUp] → sc.may deed) :
    (clearGarbage hooks).Timely t sc n self := by
  have disown : (Act.modifyCollector ({ · with garbage := [] })).Timely t sc n self := by
    intro L Q s A _ _
    exact always_of_ok (modifyCollector_apply _ s)
      ⟨A.disown (may (by simp)), (lasting_paces.modifyCollector (by intro; rfl)).of_ok rfl⟩
  exact still_collector.timely.bind fun c => disown.bind fun _ =>
    (Timely.forM (fun _ => release_timely H (may (by simp))) c.garbage).answer _

/-- A collection that is refused leaves the pace alone; one that completes upsets the run. -/
theorem collect_minds (H : hooks.Timely t sc n) (may : sc.may .collect) (A : At sc false L Q s)
    (hn : s.memory.heap.unspent sc ≤ n) {i : Int} {outcome : Except Fault Answer}
    (run : attempt (perform hooks self (.call (.collect i))) s = .ok outcome s') :
    (Op.call (.collect i)).Minds t I outcome s s' := by
  have answered : perform hooks self (.call (.collect i)) s =
      (collect hooks i >>= fun count => pure (.nat count)) s := rfl
  rw [attempt_apply, answered, bind_apply] at run
  rcases collect_cases hooks i s with ⟨e, refused⟩ | ⟨c, g, hc, idle, hg⟩
  · rw [refused] at run
    cases run
    exact (Machine.Paces.refl s).minds
  · obtain ⟨pass, hp, P⟩ := H.sound.pass rfl may
    obtain ⟨done, s₁, ran, leads, -, paces⟩ := Pass.run_paces P (H.pass hp) A hn hc g
    obtain ⟨c', hc'⟩ := leads.exists_collector hc
    have collected := collect_apply hc idle hg hp ran hc'
    split at collected
    all_goals
      rw [collected] at run
      cases run
      exact ⟨paces.journal, nofun⟩

/-- What a call that sets off hooks does outside of passes, if it starts none itself. -/
theorem call_timely (H : hooks.Timely t sc n) {c : Call} (allowed : sc.allows (.call c))
    (sets : c.setsOff = true) (automatic : ∀ i, c ≠ .collect i) :
    (call hooks self c).Timely t sc n self := by
  have may {deed : Deed} (mem : deed ∈ c.deeds) : sc.may deed := sc.deeds allowed mem
  cases c with
  | allocate kind typeName => exact (allocate_timely H may kind typeName).answer _
  | allocateMany kind count => exact (allocateMany_timely H may kind 0 count).answer _
  | chain length close => exact (chain_timely H may length close).answer _
  | release id => exact (release_timely H (may List.mem_cons_self)).answer _
  | removeEdge source target => exact (removeEdge_timely H (may List.mem_cons_self)).answer _
  | collect i => exact absurd rfl (automatic i)
  | clearGarbage => exact (clearGarbage_timely H may).answer _
  | _ => cases sets

/-- What an operation outside of passes does. -/
theorem perform_minds_outside (H : hooks.Timely t sc n) (allowed : sc.allows op)
    (A : At sc false L Q s) (hn : s.memory.heap.unspent sc ≤ n)
    (spent : s.memory.heap.isSpent self = true) {outcome : Except Fault Answer}
    (run : attempt (perform hooks self op) s = .ok outcome s') :
    op.Minds t (Pace.OnTime t) outcome s s' := by
  refine perform_minds (fun p on => on.thresholds) (fun c e sets => ?_) (fun r e => ?_) run <;>
    subst e
  · by_cases collects : ∃ i, c = .collect i
    · obtain ⟨i, rfl⟩ := collects
      exact collect_minds H (sc.deeds allowed List.mem_cons_self) A hn run
    · have timely : (perform hooks self (.call c)).Timely t sc n self :=
        call_timely H allowed sets fun i e => collects ⟨i, e⟩
      obtain ⟨outcome', s'', run', -, paces⟩ := attempt_of_always (timely L Q s A hn spent)
      cases run.symm.trans run'
      exact paces.minds
  · exact absurd (sc.host allowed) Bool.false_ne_true

theorem runScript_timely (H : hooks.Timely t sc n) {script : Script}
    (allowed : ∀ step ∈ script, sc.allows step.op) :
    (runScript hooks self script).Timely t sc n self := by
  induction script with
  | nil => exact (still_pure ()).timely
  | cons step rest ih =>
    have ih := ih fun step' mem => allowed step' (List.mem_cons_of_mem step mem)
    intro L Q s A hn spent
    have first := allowed step List.mem_cons_self
    obtain ⟨outcome, s', run, leads⟩ := performed_leads H.sound first A hn spent
    have paces := (perform_minds_outside H first A hn spent run).performed
    have goesOn := ih L Q _ leads.there (Nat.le_trans leads.unspent_le hn)
      ((Steps.later leads.steps).isSpent spent)
    exact runScript_always run ⟨leads, paces⟩ (goesOn.mono fun _ ⟨leads', paces'⟩ =>
      ⟨leads.trans leads', paces.trans paces'⟩)

end Host

/-- Hooks outside of passes keep the schedule. -/
theorem Hooks.outside_timely (passes : sc.passes) (n : Nat) : (outside n).Timely t sc n := by
  have steady (n : Nat) {pass : PassHooks} (e : (outside n).pass? = some pass) {I : Pace → Prop}
      (uniform : ∀ p, I p → p.thresholds = t) : pass.Upholds (Machine.Paces t I I) := by
    obtain rfl := eq_ofPass e
    exact ofPass_paces uniform n
  induction n with
  | zero => exact ⟨outside_sound sc passes 0, fun _ few => absurd few (Nat.not_lt_zero _), steady 0⟩
  | succ n ih =>
    refine ⟨outside_sound sc passes (n + 1), fun {L Q s self script} A few spent hook => ?_,
      steady (n + 1)⟩
    exact (Host.runScript_timely ih (fun _ => sc.steps hook) L Q s A (Nat.le_of_lt_succ few)
      spent).mono fun _ => And.right

/-! ## Runs -/

/-- The pace of a collector that has seen no passes. -/
def Pace.start (t : Thresholds) : Pace := ⟨t, fun _ => 0, ⟨.replicate 3 {}, .replicate 3 0⟩⟩

theorem Pace.onTime_start : (Pace.start t).OnTime t where
  thresholds := rfl
  divides _ := by simp [start, Vector.get]
  noted _ := by simp [start, Vector.get]
  early := t.positive

/-- A new collector has seen no passes. -/
theorem Memory.pace?_start {m : Memory} (settings : Settings) {c : Collector}
    (hc : m.collector = some c) (run : Collector.start settings = .ok c)
    (given : settings.thresholds = t.counts) : m.pace? = some (.start t) := by
  obtain ⟨thresholds, accepted, run⟩ := Heap.exists_of_bind run
  cases run
  obtain rfl : thresholds = t :=
    Thresholds.eq_of_counts ((Thresholds.counts_of_ofCounts accepted).trans given)
  have counts (g : Generation) :
      (if g = .youngest then 0 else (Tracker.start thresholds).counts.get g) = 0 := by
    simp [Tracker.start, Vector.get]
  rw [Memory.pace?, hc]
  exact congrArg (fun counts => some (Pace.mk thresholds counts _)) (funext counts)

/-- Neither the operation nor a step of a hook in its course has upset the run. -/
def Op.Calm (t : Thresholds) (op : Op) (record : Record) : Prop :=
  op.upsets t record.outcome = false ∧ ∀ m ∈ record.moments, m.event.upsets t = false

namespace Machine

/-- The schedule is kept by an operation of a host that starts no pass itself. -/
theorem Goes.perform (goes : s.Goes (Pace.OnTime t)) (settled : s.memory.Settled)
    (host : op.isHostOp = true) (calm : op.Calm t (s.perform op).1) :
    (s.perform op).2.Goes (Pace.OnTime t) := by
  have A := settled.begun op
  have allowed : (s.memory.scope op).allows op :=
    ⟨host, fun x hx => List.mem_toFinset.mpr (List.mem_append_right _ hx)⟩
  obtain ⟨outcome, s', run⟩ := exists_attempt (Host.perform (s.hooksFor op) 0 op) s.forget
  have minds := Host.perform_minds_outside (t := t) (Hooks.outside_timely trivial _) allowed A
    (s.memory.unspent_le_budget op) A.sound.balanced.isSpent_zero run
  have performed := perform_of_attempt run
  rw [performed] at calm ⊢
  refine (minds.paces calm.1).goes (fun ⟨m, mem, upsets⟩ => ?_) goes
  exact absurd upsets (Bool.eq_false_iff.mp (calm.2 m (List.mem_reverse.mpr mem)))

theorem Goes.performAll (goes : s.Goes (Pace.OnTime t)) (settled : s.memory.Settled) {ops : List Op}
    (host : ops.all Op.isHostOp = true)
    (calm : List.Forall₂ (Op.Calm t) ops (s.performAll ops).1) :
    (s.performAll ops).2.Goes (Pace.OnTime t) := by
  induction ops generalizing s with
  | nil => exact goes
  | cons op ops ih =>
    rw [List.all_cons, Bool.and_eq_true] at host
    obtain ⟨first, rest⟩ := List.forall₂_cons.mp calm
    exact ih (goes.perform settled host.1 first) (perform_settled settled host.1) host.2 rest

/-- The frequency of automatic passes. If a collector has seen no passes yet, and the run goes on
without collections on demand and with constant thresholds, there is one pass over an older
generation for every so many over the next younger one as its threshold says, whatever hooks do; the
counts are the passes left over, and the statistics count the same passes as the tracker. -/
theorem Attained.frequency (run : Attained s) (fresh : s.memory.pace? = some (.start t))
    {ops : List Op} (host : ops.all Op.isHostOp = true)
    (calm : List.Forall₂ (Op.Calm t) ops (s.performAll ops).1) :
    ∃ c, (s.performAll ops).2.memory.collector = some c ∧ c.tracker.thresholds = t ∧
      c.tracker.collections.get 1 = c.tracker.collections.get 0 / t.get 1 ∧
      c.tracker.collections.get 2 = c.tracker.collections.get 1 / t.get 2 ∧
      c.tracker.counts.get 1 = c.tracker.collections.get 0 % t.get 1 ∧
      c.tracker.counts.get 2 = c.tracker.collections.get 1 % t.get 2 ∧
      ∀ g, (c.stats.get g).collections = c.tracker.collections.get g := by
  have goes : s.Goes (Pace.OnTime t) := ⟨_, fresh, Pace.onTime_start⟩
  obtain ⟨p, hp, on⟩ := goes.performAll run.settled host calm
  obtain ⟨c, hc, rfl⟩ := Option.map_eq_some_iff.mp hp
  obtain ⟨middle, afterYoungest⟩ := on.shares (g := 0) (i := 1) rfl
  obtain ⟨oldest, afterMiddle⟩ := on.shares (g := 1) (i := 2) rfl
  exact ⟨c, hc, on.thresholds, middle, oldest, afterYoungest, afterMiddle, on.noted⟩

/-- Thresholds at which hardly an allocation passes without a pass. -/
def strict : Thresholds := ⟨#v[1, 2, 2], by decide⟩

/-- A hook that allocates and starts a pass, which is in vain while another one is running. -/
def meddle : Script := [⟨.call (.allocate .container "node"), false⟩, ⟨.call (.collect 2), true⟩]

/-- A hook that allocates and throws. -/
def outcry : Script :=
  [⟨.call (.allocateMany .container 3), false⟩, ⟨.call (.throw "enough"), false⟩]

/-- An empty heap with a collector that has these thresholds. -/
def hurried : Machine := (performAll {} [.raw (.attach { thresholds := strict.counts })]).2

/-- Allocations with a callback that meddles, a release whose finalizer makes passes due, and a
collection that is refused. -/
def haste : List Op :=
  [.addCallback .both meddle, .call (.allocateMany .container 5), .setFinalizer (.id 1) outcry,
    .call (.release (.id 1)), .call (.collect 3)]

theorem frequency_haste :
    (∃ c, (hurried.performAll haste).2.memory.collector = some c ∧
      c.tracker.collections.get 1 = c.tracker.collections.get 0 / 2 ∧
      c.tracker.collections.get 2 = c.tracker.collections.get 1 / 2 ∧
      c.tracker.counts.get 1 = c.tracker.collections.get 0 % 2 ∧
      c.tracker.counts.get 2 = c.tracker.collections.get 1 % 2) ∧
      (hurried.performAll haste).2.memory.collector.map (·.tracker.collections.toList) =
        some [7, 3, 1] := by
  have run : Attained hurried := .performAll (.start none rfl) (by decide +kernel)
  have fresh : hurried.memory.pace? = some (.start strict) :=
    Memory.pace?_start { thresholds := strict.counts } rfl rfl rfl
  have host : haste.all Op.isHostOp = true := by decide +kernel
  have calm : List.Forall₂ (Op.Calm strict) haste (hurried.performAll haste).1 := by
    unfold Op.Calm
    decide +kernel
  obtain ⟨c, hc, -, middle, oldest, afterYoungest, afterMiddle, -⟩ :=
    run.frequency fresh host calm
  exact ⟨⟨c, hc, middle, oldest, afterYoungest, afterMiddle⟩, by decide +kernel⟩

end Machine

end Reclaim
