import Reclaim.Proofs.CountingLaw
import Reclaim.Proofs.Restraint

/-!
# Finalizers run once, and before death

An object is marked as finalized before its finalizer is entered, and the mark is never cleared, so
no object is finalized twice: not if it is resurrected, given another finalizer, or released anew
from within (`Machine.Step.account`). Cascades and passes free an object only when no finalizer of
it is pending. Between that check and its being freed the hooks of other objects may run; if they
install no finalizer, none becomes pending meanwhile, so whatever is freed with a finalizer has had
one run before (`Machine.finalizers_run_once`).
-/

set_option autoImplicit false

namespace Reclaim

open Machine

variable {sc : Scope} {L L' : Loose} {s s' : Machine} {op : Op} {x : ObjectId} {h : Heap}
  {past ms : List Moment}

/-- The object whose finalizer is entered, if one is. -/
def Event.finalizes? : Event → Option ObjectId
  | .finalizing x => some x
  | _ => none

/-- The objects whose finalizers were entered, one for each time. -/
def finalized (ms : List Moment) : List ObjectId := ms.filterMap (·.event.finalizes?)

theorem Event.finalizes?_eq_some {event : Event} :
    event.finalizes? = some x ↔ event = .finalizing x := by
  cases event <;> simp [finalizes?]

theorem mem_finalized : x ∈ finalized ms ↔ ∃ m ∈ ms, m.event = .finalizing x :=
  List.mem_filterMap.trans (exists_congr fun _ => and_congr_right fun _ =>
    Event.finalizes?_eq_some)

theorem finalized_cons_of_note {m : Moment} (note : m.event.finalizes? = none) :
    finalized (m :: ms) = finalized ms := List.filterMap_cons_none note

theorem finalized_cons {m : Moment} (e : m.event = .finalizing x) :
    finalized (m :: ms) = x :: finalized ms :=
  List.filterMap_cons_some (Event.finalizes?_eq_some.mpr e)

/-- The object is live, and so is all that it refers to. -/
def Heap.Intact (h : Heap) (x : ObjectId) : Prop :=
  ∃ o, h.get? x = some o ∧ ∀ y ∈ o.references, ∃ p, h.get? y = some p

/-- A history, last moments first, in which finalizers run in order. -/
structure Orderly (history : List Moment) : Prop where
  once : (finalized history).Nodup
  entered : ∀ m ∈ history, ∀ x, m.event = .finalizing x → m.memory.heap.Intact x
  /-- When an object is freed that is marked as finalized, its finalizer was entered earlier. -/
  freed : ∀ m earlier, (m :: earlier) <:+ history → ∀ x, m.event = .freeing x →
    ∃ o, m.memory.heap.get? x = some o ∧ (o.finalized = true → x ∈ finalized earlier)

/-- What a history tells about the finalizers of a heap that it has led to. -/
structure Account (history : List Moment) (h : Heap) : Prop extends Orderly history where
  spent : ∀ x ∈ finalized history, h.isSpent x = true
  /-- No object is marked as finalized without a word. -/
  marked : ∀ {x o}, h.get? x = some o → o.finalized = true → x ∈ finalized history
  /-- No object goes without a word. -/
  gone : ∀ x, 0 < x → x < h.nextId → h.get? x = none → ∃ m ∈ history, m.event = .freeing x

/-- A history goes on in order, if a finalizer that is entered was not entered before and an object
that is freed has had its turn. -/
theorem Orderly.cons {m : Moment} (O : Orderly past)
    (entered : ∀ x, m.event = .finalizing x → x ∉ finalized past ∧ m.memory.heap.Intact x)
    (freed : ∀ x, m.event = .freeing x →
      ∃ o, m.memory.heap.get? x = some o ∧ (o.finalized = true → x ∈ finalized past)) :
    Orderly (m :: past) where
  once := by
    cases e : m.event.finalizes? with
    | none =>
      rw [finalized_cons_of_note e]
      exact O.once
    | some x =>
      have e : m.event = .finalizing x := Event.finalizes?_eq_some.mp e
      rw [finalized_cons e]
      exact List.nodup_cons.mpr ⟨(entered x e).1, O.once⟩
  entered := List.forall_mem_cons.mpr ⟨fun x e => (entered x e).2, O.entered⟩
  freed m' earlier suffix x e := by
    rcases List.suffix_cons_iff.mp suffix with now | before
    · cases now
      exact freed x e
    · exact O.freed m' earlier before x e

namespace Machine

/-- What a step adds to the journal: nothing, a note, the entry into a finalizer, or the freeing of
an object. -/
theorem Step.journal_inv (step : Step sc (L, s) (L', s')) : s'.journal = s.journal ∨
    (∃ event, event.isNote = true ∧ s' = s.log event) ∨
    (∃ x o script, s.memory.heap.get? x = some o ∧ o.pendingFinalizer? = some script ∧
      s' = (s.withHeap (s.memory.heap.put x o.markFinalized)).log (.finalizing x)) ∨
    ∃ x o m', s.memory.heap.get? x = some o ∧ s' = (s.log (.freeing x)).withMemory m' := by
  cases step with
  | aside _ journal _ => exact .inl journal
  | edit _ | collecting _ | book _ _ _ _ _ _ _ | allocate _ _ _ | configure _ _ _ | disown _ =>
    exact .inl rfl
  | note note => exact .inr (.inl ⟨_, note, rfl⟩)
  | finalize hx pending => exact .inr (.inr (.inl ⟨_, _, _, hx, pending, rfl⟩))
  | destroy hx _ _ _ _ => exact .inr (.inr (.inr ⟨_, _, _, hx, rfl⟩))

/-- An object that is marked as finalized after a step was so before, or its finalizer has been
entered. -/
theorem Step.marked {p : Object} (step : Step sc (L, s) (L', s'))
    (hp : s'.memory.heap.get? x = some p) (mark : p.finalized = true) :
    (∃ o, s.memory.heap.get? x = some o ∧ o.finalized = true) ∨
      ∃ m, s'.journal = m :: s.journal ∧ m.event = .finalizing x := by
  cases step with
  | aside memory _ _ => exact .inl ⟨p, memory ▸ hp, mark⟩
  | note _ | collecting _ | configure _ _ _ | disown _ => exact .inl ⟨p, hp, mark⟩
  | edit edit =>
    obtain ⟨o, ho, same⟩ := edit.exists_old hp
    exact .inl ⟨o, ho, (congrArg (·.2.2) same).trans mark⟩
  | finalize hx _ =>
    rw [log_memory, withHeap_heap, Heap.get?_put] at hp
    split at hp
    · next e => exact .inr ⟨_, rfl, congrArg Event.finalizing e⟩
    · exact .inl ⟨p, hp, mark⟩
  | destroy hx _ _ _ run =>
    rw [Memory.exists_of_destroy hx run, withMemory_memory, Heap.get?_erase] at hp
    split at hp
    · cases hp
    · exact .inl ⟨p, hp, mark⟩
  | book g saves r _ _ _ _ =>
    rw [withMemory_memory, Memory.get?_book, Option.map_eq_some_iff] at hp
    obtain ⟨o, ho, rfl⟩ := hp
    refine .inl ⟨o, ho, ?_⟩
    split at mark <;> exact mark
  | allocate kind typeName _ =>
    rw [Memory.allocate_eq, withMemory_memory, Heap.get?_allocate] at hp
    split at hp
    · cases hp
      cases mark
    · exact .inl ⟨p, hp, mark⟩

/-- A step continues the account. -/
theorem Step.account (step : Step sc (L, s) (L', s')) (B : s.memory.heap.Balanced L)
    (account : Account (s.journal ++ past) s.memory.heap) :
    Account (s'.journal ++ past) s'.memory.heap := by
  have older : s.journal ++ past ⊆ s'.journal ++ past := List.append_subset.mpr
    ⟨fun m mem => List.mem_append_left past (step.journal mem), List.subset_append_right _ _⟩
  have spent (x : ObjectId) (hx : x ∈ finalized (s.journal ++ past)) :
      s'.memory.heap.isSpent x = true := step.later.isSpent (account.spent x hx)
  have marked {x : ObjectId} {p : Object} (hp : s'.memory.heap.get? x = some p)
      (mark : p.finalized = true) : x ∈ finalized (s'.journal ++ past) := by
    rcases step.marked hp mark with ⟨o, ho, mark⟩ | ⟨m, more, e⟩
    · obtain ⟨m, mem, e⟩ := mem_finalized.mp (account.marked ho mark)
      exact mem_finalized.mpr ⟨m, older mem, e⟩
    · exact mem_finalized.mpr ⟨m, by rw [more]; exact List.mem_cons_self, e⟩
  have gone (x : ObjectId) (handle : 0 < x) (old : x < s'.memory.heap.nextId)
      (dead : s'.memory.heap.get? x = none) :
      ∃ m ∈ s'.journal ++ past, m.event = .freeing x := by
    rcases step.freeing old dead with ⟨old, dead⟩ | ⟨m, mem, e⟩
    · obtain ⟨m, mem, e⟩ := account.gone x handle old dead
      exact ⟨m, older mem, e⟩
    · exact ⟨m, List.mem_append_left past mem, e⟩
  rcases step.journal_inv with same | ⟨event, note, rfl⟩ | ⟨x, o, script, hx, pending, rfl⟩ |
    ⟨x, o, m', hx, rfl⟩
  · rw [same] at marked gone ⊢
    exact ⟨account.toOrderly, spent, marked, gone⟩
  -- a note is about neither finalizers nor freed objects
  · have same : finalized ((s.log event).journal ++ past) = finalized (s.journal ++ past) :=
      finalized_cons_of_note (by cases event <;> first | rfl | cases note)
    refine ⟨account.toOrderly.cons (fun x e => ?_) fun x e => ?_, same ▸ spent, marked, gone⟩
    all_goals cases e; cases note
  -- its finalizer was pending, so the object was not spent, and none of it was entered before
  · have fresh : x ∉ finalized (s.journal ++ past) := fun told => by
      have := account.spent x told
      rw [Heap.not_isSpent_of_pending hx pending] at this
      cases this
    have intact : (s.memory.heap.put x o.markFinalized).Intact x := by
      refine ⟨o.markFinalized, by rw [Heap.get?_put, if_pos rfl], fun y hy => ?_⟩
      rw [Heap.get?_put]
      split
      · exact ⟨_, rfl⟩
      · exact B.closed hx hy
    have now : (s.memory.heap.put x o.markFinalized).isSpent x = true := by
      refine Heap.isSpent_iff.mpr ⟨(B.keyed hx).2.2, fun p hp => ?_⟩
      rw [Heap.get?_put, if_pos rfl] at hp
      cases hp
      rfl
    have more : finalized (((s.withHeap (s.memory.heap.put x o.markFinalized)).log
        (.finalizing x)).journal ++ past) = x :: finalized (s.journal ++ past) :=
      finalized_cons rfl
    refine ⟨account.toOrderly.cons (fun y e => ?_) nofun, ?_, marked, gone⟩
    · cases e
      exact ⟨fresh, intact⟩
    · rw [more]
      exact List.forall_mem_cons.mpr ⟨now, spent⟩
  -- what is freed was there, and if it was marked its finalizer had been entered
  · have same : finalized (((s.log (.freeing x)).withMemory m').journal ++ past) =
        finalized (s.journal ++ past) := finalized_cons_of_note rfl
    refine ⟨account.toOrderly.cons nofun fun y e => ?_, same ▸ spent, marked, gone⟩
    cases e
    exact ⟨o, hx, account.marked hx⟩

theorem Steps.account {a b : Loose × Machine} (steps : Steps sc a b)
    (S : a.2.memory.Sound sc a.1) (account : Account (a.2.journal ++ past) a.2.memory.heap) :
    Account (b.2.journal ++ past) b.2.memory.heap := by
  induction steps with
  | refl => exact account
  | tail steps step ih => exact step.account (Steps.sound steps S).balanced ih

end Machine

/-! ## Along a run -/

/-- The operation installs a finalizer. -/
def Op.isInstall : Op → Bool
  | .setFinalizer _ _ => true
  | _ => false

/-- No hook that the operation stores installs a finalizer, to any depth. -/
def Op.installsOutside (op : Op) : Bool := Script.everywhere (!·.isInstall) op.stored

/-- Hooks without such instructions install no finalizer. -/
theorem Scope.fixed_restrict (sc : Scope) : (sc.restrict (!·.isInstall)).Fixed := by
  intro id script allowed
  have := (Op.everywhere_iff.mp allowed.2).1
  cases this

namespace Machine

/-- A machine whose hooks install no finalizer, and the history that has led to it, last moments
first. -/
structure Diligent (past : List Moment) (s : Machine) : Prop where
  settled : s.memory.Settled
  restrains : s.memory.Restrains (!·.isInstall)
  account : Account past s.memory.heap
  unpending : ∀ m ∈ past, ∀ x, m.event = .freeing x → m.memory.heap.pending? x = none

/-- Installing a finalizer from outside does nothing else. -/
theorem perform_setFinalizer (s : Machine) (id : Operand) (script : Script) :
    (s.perform (.setFinalizer id script)).2 = s.forget ∨
      ∃ h, s.memory.heap.setFinalizer (id.resolve 0) (some script) = .ok h ∧
        (s.perform (.setFinalizer id script)).2 = s.forget.withHeap h := by
  cases run : s.memory.heap.setFinalizer (id.resolve 0) (some script) with
  | error e =>
    have refused : Host.perform (s.hooksFor (.setFinalizer id script)) 0 (.setFinalizer id script)
        s.forget = .error e s.forget := by
      simp only [Host.perform, Host.setFinalizer, Act.bind_apply,
        Act.edit_of_error (s := s.forget) (f := (·.setFinalizer (id.resolve 0) (some script))) run]
    exact .inl (congrArg Prod.snd (perform_of_error refused))
  | ok h =>
    have installed : Host.perform (s.hooksFor (.setFinalizer id script)) 0
        (.setFinalizer id script) s.forget = .ok .done (s.forget.withHeap h) := by
      simp only [Host.perform, Host.setFinalizer, Act.bind_apply,
        Act.edit_of_ok (s := s.forget) (f := (·.setFinalizer (id.resolve 0) (some script))) run,
        Act.pure_apply]
    exact .inr ⟨h, rfl, congrArg Prod.snd (perform_of_ok installed)⟩

theorem pending?_of_setFinalizer {y : ObjectId} {h' : Heap} {script script' : Script}
    (run : h.setFinalizer x (some script) = .ok h') (pending : h'.pending? y = some script') :
    h.pending? y = some script' ∨ script' = script := by
  obtain ⟨o, hx, rfl⟩ := Heap.exists_of_setFinalizer run
  rw [Heap.pending?, Heap.get?_put] at pending
  split at pending
  · rw [Option.bind_some, Object.pendingFinalizer?] at pending
    split at pending
    · cases pending
    · exact .inr (Option.some.inj pending).symm
  · exact .inl pending

/-- An operation from outside keeps a diligent machine so. -/
theorem Diligent.perform (D : Diligent past s) (host : op.isOutsideOp = true)
    (outside : op.installsOutside = true) :
    Diligent ((s.perform op).1.moments.reverse ++ past) (s.perform op).2 := by
  have journal : (s.perform op).1.moments.reverse = (s.perform op).2.journal := by
    rw [moments_eq, List.reverse_reverse]
  rw [journal]
  rcases perform_cases host with host | ⟨collector, fresh, e⟩
  · have A := D.settled.begun op
    have steps := (perform_leads_scope D.settled host).steps
    have settled := perform_settled D.settled host
    have account : Account ((s.perform op).2.journal ++ past) (s.perform op).2.memory.heap :=
      Steps.account steps A.sound D.account
    by_cases install : op.isInstall = true
    · obtain ⟨id, script, rfl⟩ : ∃ id script, op = .setFinalizer id script := by
        cases op with
        | setFinalizer id script => exact ⟨id, script, rfl⟩
        | _ => cases install
      rcases perform_setFinalizer s id script with e | ⟨h, run, e⟩
      · rw [e] at settled account ⊢
        exact ⟨settled, D.restrains, account, D.unpending⟩
      · rw [e] at settled account ⊢
        refine ⟨settled, ⟨fun pending => ?_, D.restrains.callbacks⟩, account, D.unpending⟩
        rcases pending?_of_setFinalizer run pending with old | rfl
        · exact D.restrains.pending old
        · exact outside
    · -- no finalizer is installed in the course of any other operation
      have all : op.everywhere (!·.isInstall) = true :=
        Op.everywhere_iff.mpr ⟨by simpa using install, outside⟩
      have leads := perform_restrained D.settled D.restrains host all
      obtain ⟨ms, hms, plain⟩ := leads.conduct.adds
      refine ⟨settled, leads.there.restrains trivial, account, fun m mem x e => ?_⟩
      rw [hms, List.append_assoc] at mem
      rcases List.mem_append.mp mem with mem | mem
      · rcases plain m mem with ⟨b, books, plain⟩ | ⟨⟨index, phase, info, e'⟩, -⟩
        · exact plain.unpending (Scope.fixed_restrict _) e
        · rw [e] at e'
          cases e'
      · exact D.unpending m mem x e
  · rw [e]
    refine ⟨D.settled.replace fresh, ⟨D.restrains.pending, fun {c cb} hc hcb => ?_⟩, D.account,
      D.unpending⟩
    obtain ⟨settings, run⟩ := fresh c hc
    rw [(Collector.start_fresh run).2.2.1] at hcb
    cases hcb

theorem Diligent.performAll (D : Diligent past s) {ops : List Op}
    (host : ops.all Op.isOutsideOp = true) (outside : ops.all Op.installsOutside = true) :
    Diligent ((s.history ops).reverse ++ past) (s.performAll ops).2 := by
  induction ops generalizing s past with
  | nil => exact D
  | cons op ops ih =>
    rw [List.all_cons, Bool.and_eq_true] at host outside
    have rest := ih (D.perform host.1 outside.1) host.2 outside.2
    rwa [history_cons, List.reverse_append, List.append_assoc]

end Machine

end Reclaim
