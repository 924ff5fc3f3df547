import Reclaim.Proofs.CountingLaw

/-!
# Refusals

Operations on the graph are refused for the reasons that are given for them and for no others, and
what is refused has changed nothing (`Host.Strict`). Releases and removals of edges take a reference
from its holder before they give it back, which may run any number of finalizers and free any number
of objects; giving it back cannot fail, as every reference is counted wherever hooks are entered. So
no fault of a finalizer or a callback reaches the operation that has set it off, and no operation
finds a count that contradicts the references (`Machine.Attained.operations_strict`).
-/

set_option autoImplicit false

namespace Reclaim

open Machine

variable {sc : Scope} {b : Bool} {n : Nat} {L : Loose} {Q : ObjectId → Prop} {s s' : Machine}
  {x y self : ObjectId} {op : Op}

/-- A fault that an operation of a host may end with on its own account. Counts that contradict the
references, and objects that are to be taken out but are not there, are no such faults; nor is what
a hook throws. -/
def Fault.isOwn : Fault → Bool
  | .invalidReference _ .destroyUnknown => false
  | .inconsistentCount _ => false
  | .thrown _ => false
  | _ => true

/-- A fault that an operation may end with. Only the throwing of a message throws it. -/
def Op.mayFail : Op → Fault → Bool
  | .call (.throw message), .thrown message' => message = message'
  | _, fault => fault.isOwn

theorem Op.mayFail_of_isOwn {fault : Fault} (own : fault.isOwn = true) :
    op.mayFail fault = true := by
  unfold mayFail
  split
  · cases own
  · exact own

namespace Act

variable {α β : Type} {act : Act α} {f : α → Act β}

/-- For a certain reason and for no other the action is refused, as a reference that cannot be used
and without any change. -/
structure RefusedIff (act : Act α) (s : Machine) (reason : Prop) : Prop where
  refused : reason → ∃ x cause, cause ≠ .destroyUnknown ∧
    act s = .error (.invalidReference x cause) s
  succeeds : ¬ reason → ∃ a s', act s = .ok a s'

theorem RefusedIff.of_edit {edit : Heap → Except Fault Heap} {reason : Prop}
    (refused : reason → ∃ x cause, cause ≠ .destroyUnknown ∧
      edit s.memory.heap = .error (.invalidReference x cause))
    (succeeds : ¬ reason → ∃ h', edit s.memory.heap = .ok h') :
    (Act.edit edit).RefusedIff s reason where
  refused holds := by
    obtain ⟨x, cause, known, run⟩ := refused holds
    exact ⟨x, cause, known, edit_of_error run⟩
  succeeds fails := by
    obtain ⟨h', run⟩ := succeeds fails
    exact ⟨(), _, edit_of_ok run⟩

theorem RefusedIff.isOwn {reason : Prop} {fault : Fault} (iff : act.RefusedIff s reason)
    (run : act s = .error fault s') : fault.isOwn = true := by
  by_cases holds : reason
  · obtain ⟨x, cause, known, refused⟩ := iff.refused holds
    rw [run] at refused
    cases refused
    cases cause with
    | destroyUnknown => exact absurd rfl known
    | _ => rfl
  · obtain ⟨a, s'', succeeds⟩ := iff.succeeds holds
    rw [run] at succeeds
    cases succeeds

end Act

namespace Heap

variable {h : Heap}

theorem get_of_none (dead : h.get? x = none) : h.get x = .error (.invalidReference x .unknown) := by
  simp only [get, dead]

theorem get_isOwn {e : Fault} (run : h.get x = .error e) : e.isOwn = true := by
  cases hx : h.get? x with
  | none =>
    rw [get_of_none hx] at run
    cases run
    rfl
  | some o =>
    rw [get_of_get? hx] at run
    cases run

theorem giveUpRoot_of_dead (dead : h.get? x = none) :
    h.giveUpRoot x = .error (.invalidReference x .unknown) := by
  simp only [giveUpRoot, get_of_none dead, bind, Except.bind]

theorem giveUpRoot_of_unrooted {o : Object} (hx : h.get? x = some o) (root : o.rootCount = 0) :
    h.giveUpRoot x = .error (.invalidReference o.id .noRoot) := by
  simp only [giveUpRoot, get_of_get? hx, Object.removeRoot, root, bind, Except.bind]

theorem cut_of_dead (dead : h.get? x = none) :
    h.cut x y = .error (.invalidReference x .unknown) := by
  simp only [cut, get_of_none dead, bind, Except.bind]

theorem cut_of_not_mem {o : Object} (hx : h.get? x = some o) (absent : y ∉ o.references) :
    h.cut x y = .error (.invalidReference y (.noEdge x)) := by
  simp only [cut, get_of_get? hx, Object.removeReference?, if_neg absent, bind, Except.bind]
  rfl

theorem cut_of_mem {o : Object} (hx : h.get? x = some o) (mem : y ∈ o.references) :
    h.cut x y = .ok (h.put x { o with references := o.references.erase y }) := by
  simp only [cut, get_of_get? hx, Object.removeReference?, if_pos mem, bind, Except.bind]
  rfl

theorem addEdge_of_get? {o p : Object} (hx : h.get? x = some o) (hy : h.get? y = some p) :
    h.addEdge x y = if o.isContainer then
      .ok ((h.put x (o.appendReference y)).modify y Object.incRef)
    else .error (.invalidReference x .notContainer) := by
  simp only [addEdge, get_of_get? hx, get_of_get? hy, bind, Except.bind]
  split <;> rfl

end Heap

namespace Host

open Act

variable {hooks : Hooks}

/-- What operations on the graph are refused for, and that the collector runs its passes and the
heap its finalizers whatever those do. -/
structure Strict (hooks : Hooks) (s : Machine) : Prop where
  retain : ∀ x, (retain x).RefusedIff s (s.memory.heap.get? x = none)
  setFinalizer : ∀ x finalizer,
    (setFinalizer x finalizer).RefusedIff s (s.memory.heap.get? x = none)
  release : ∀ x, (release hooks x).RefusedIff s
    (s.memory.heap.get? x = none ∨ ∃ o, s.memory.heap.get? x = some o ∧ o.rootCount = 0)
  addEdge : ∀ x y, (addEdge x y).RefusedIff s (s.memory.heap.get? x = none ∨
    s.memory.heap.get? y = none ∨ ∃ o, s.memory.heap.get? x = some o ∧ o.kind = .atom)
  removeEdge : ∀ x y, (removeEdge hooks x y).RefusedIff s (s.memory.heap.get? x = none ∨
    ∃ o, s.memory.heap.get? x = some o ∧ y ∉ o.references)
  allocate : ∀ kind typeName, ∃ s',
    allocate hooks kind typeName s = .ok s.memory.heap.nextId s'
  runFinalizer : ∀ x, ∃ s', Release.runFinalizer hooks.finalization x s = .ok () s'
  runPass : s.memory.isCollecting = false → s.memory.collector.isSome = true →
    ∃ pass, hooks.pass? = some pass ∧ ∀ g, ∃ outcome s', Pass.run pass g s = .ok outcome s'

theorem retain_refusedIff (x : ObjectId) (s : Machine) :
    (retain x).RefusedIff s (s.memory.heap.get? x = none) := by
  refine .of_edit (fun dead => ⟨x, .unknown, nofun, ?_⟩) fun live => ?_
  · simp only [Heap.retain, Heap.get_of_none dead, bind, Except.bind]
  · obtain ⟨o, hx⟩ := Option.ne_none_iff_exists'.mp live
    simp only [Heap.retain, Heap.get_of_get? hx, bind, Except.bind]
    exact ⟨_, rfl⟩

theorem setFinalizer_refusedIff (x : ObjectId) (finalizer : Option Script) (s : Machine) :
    (setFinalizer x finalizer).RefusedIff s (s.memory.heap.get? x = none) := by
  refine .of_edit (fun dead => ⟨x, .unknown, nofun, ?_⟩) fun live => ?_
  · simp only [Heap.setFinalizer, Heap.get_of_none dead, bind, Except.bind]
  · obtain ⟨o, hx⟩ := Option.ne_none_iff_exists'.mp live
    simp only [Heap.setFinalizer, Heap.get_of_get? hx, bind, Except.bind]
    exact ⟨_, rfl⟩

theorem addEdge_refusedIff (x y : ObjectId) (s : Machine) :
    (addEdge x y).RefusedIff s (s.memory.heap.get? x = none ∨ s.memory.heap.get? y = none ∨
      ∃ o, s.memory.heap.get? x = some o ∧ o.kind = .atom) := by
  refine .of_edit (fun reason => ?_) fun fine => ?_
  · cases hx : s.memory.heap.get? x with
    | none =>
      refine ⟨x, .unknown, nofun, ?_⟩
      simp only [Heap.addEdge, Heap.get_of_none hx, bind, Except.bind]
    | some o =>
      cases hy : s.memory.heap.get? y with
      | none =>
        refine ⟨y, .unknown, nofun, ?_⟩
        simp only [Heap.addEdge, Heap.get_of_get? hx, Heap.get_of_none hy, bind, Except.bind]
      | some p =>
        -- both are live, so the source is to blame
        have atom : o.kind = .atom := by simpa [hx, hy] using reason
        refine ⟨x, .notContainer, nofun, ?_⟩
        rw [Heap.addEdge_of_get? hx hy, if_neg (by simp [Object.isContainer, atom])]
  · simp only [not_or, not_exists, not_and] at fine
    obtain ⟨hx, hy, kind⟩ := fine
    obtain ⟨o, hx⟩ := Option.ne_none_iff_exists'.mp hx
    obtain ⟨p, hy⟩ := Option.ne_none_iff_exists'.mp hy
    have container : o.isContainer = true := by
      have := kind o hx
      cases hk : o.kind <;> simp_all [Object.isContainer]
    exact ⟨_, (Heap.addEdge_of_get? hx hy).trans (if_pos container)⟩

/-- The host lacks a reference that it could give back. -/
theorem release_refusedIff (H : hooks.Sound sc b n) (may : sc.may .giveUp) (A : At sc b L Q s)
    (hn : s.memory.heap.unspent sc ≤ n) (x : ObjectId) : (release hooks x).RefusedIff s
      (s.memory.heap.get? x = none ∨ ∃ o, s.memory.heap.get? x = some o ∧ o.rootCount = 0) where
  refused := by
    rintro (dead | ⟨o, hx, root⟩)
    · exact ⟨x, .unknown, nofun, release_of_error (Heap.giveUpRoot_of_dead dead)⟩
    · exact ⟨o.id, .noRoot, nofun, release_of_error (Heap.giveUpRoot_of_unrooted hx root)⟩
  succeeds fine := by
    simp only [not_or, not_exists, not_and] at fine
    obtain ⟨o, hx⟩ := Option.ne_none_iff_exists'.mp fine.1
    obtain ⟨k, root⟩ := Nat.exists_eq_add_one_of_ne_zero (fine.2 o hx)
    obtain ⟨s', run, -⟩ := release_leads H may A hn (Heap.giveUpRoot_of_get? hx root)
    exact ⟨(), s', run⟩

/-- The source lacks a reference that could be taken from it. -/
theorem removeEdge_refusedIff (H : hooks.Sound sc b n) (may : sc.may .cut) (A : At sc b L Q s)
    (hn : s.memory.heap.unspent sc ≤ n) (x y : ObjectId) : (removeEdge hooks x y).RefusedIff s
      (s.memory.heap.get? x = none ∨ ∃ o, s.memory.heap.get? x = some o ∧ y ∉ o.references) where
  refused := by
    rintro (dead | ⟨o, hx, absent⟩)
    · exact ⟨x, .unknown, nofun, removeEdge_of_error (Heap.cut_of_dead dead)⟩
    · exact ⟨y, .noEdge x, nofun, removeEdge_of_error (Heap.cut_of_not_mem hx absent)⟩
  succeeds fine := by
    simp only [not_or, not_exists, not_and, not_not] at fine
    obtain ⟨o, hx⟩ := Option.ne_none_iff_exists'.mp fine.1
    obtain ⟨s', run, -⟩ := removeEdge_leads H may A hn (Heap.cut_of_mem hx (fine.2 o hx))
    exact ⟨(), s', run⟩

/-- A finalizer that fails does so on its own. -/
theorem runFinalizer_succeeds {fin : Finalization} (F : fin.Sound sc b n) (A : At sc b L Q s)
    (hn : s.memory.heap.unspent sc ≤ n) (x : ObjectId) :
    ∃ s', Release.runFinalizer fin x s = .ok () s' := by
  cases hx : s.memory.heap.get? x with
  | none => exact ⟨s, by simp only [Release.runFinalizer, bind_apply, heap_apply, hx,
      Option.bind_none, pure_apply]⟩
  | some o =>
    cases pending : o.pendingFinalizer? with
    | none => exact ⟨s, by simp only [Release.runFinalizer, bind_apply, heap_apply, hx,
        Option.bind_some, pending, pure_apply]⟩
    | some script =>
      obtain ⟨s', run, -⟩ := Release.runFinalizer_leads F A hn hx pending
      exact ⟨s', run⟩

/-- At every sound moment operations on the graph are refused as they should be. -/
theorem strict_of_at (active : sc.Active) (passes : b = false → sc.passes) (A : At sc b L Q s)
    (hn : s.memory.heap.unspent sc ≤ n) : Strict (.within b n) s := by
  have H := Hooks.within_sound sc n passes
  refine ⟨(retain_refusedIff · s), (setFinalizer_refusedIff · · s),
    release_refusedIff H (active _) A hn, (addEdge_refusedIff · · s),
    removeEdge_refusedIff H (active _) A hn, fun kind typeName => ?_,
    runFinalizer_succeeds H.finalization A hn, fun idle present => ?_⟩
  · obtain ⟨s', run, -⟩ := allocate_leads H (fun _ => active _) A hn kind typeName
    exact ⟨s', run⟩
  · obtain rfl := A.collecting.symm.trans idle
    obtain ⟨pass, hp, P⟩ := H.pass rfl (active _)
    obtain ⟨c, hc⟩ := Option.isSome_iff_exists.mp present
    refine ⟨pass, hp, fun g => ?_⟩
    obtain ⟨outcome, s', run, -⟩ := Pass.run_leads (g := g) P A hn hc
    exact ⟨outcome, s', run⟩

/-! ## Faults -/

/-- Where the action fails, it is its own fault. -/
def Owns {α : Type} (sc : Scope) (b : Bool) (n : Nat) (self : ObjectId) (act : Act α) : Prop :=
  ∀ L Q s, At sc b L Q s → s.memory.heap.unspent sc ≤ n → s.memory.heap.isSpent self = true →
    ∀ fault s', act s = .error fault s' → fault.isOwn = true

variable {α β : Type} {act : Act α} {f : α → Act β}

theorem owns_of_ok (succeeds : ∀ s, ∃ a s', act s = .ok a s') : Owns sc b n self act := by
  intro L Q s _ _ _ fault s' run
  obtain ⟨a, s'', ok⟩ := succeeds s
  rw [run] at ok
  cases ok

theorem owns_pure (a : α) : Owns sc b n self (pure a : Act α) := owns_of_ok fun s => ⟨a, s, rfl⟩

theorem owns_ofExcept {r : Except Fault α}
    (own : ∀ {fault}, r = .error fault → fault.isOwn = true) :
    Owns sc b n self (Act.ofExcept r) := by
  intro L Q s _ _ _ fault s' run
  cases r with
  | ok a => cases run
  | error e =>
    cases run
    exact own rfl

theorem owns_collector : Owns sc b n self collector := by
  intro L Q s _ _ _ fault s' run
  cases hc : s.memory.collector with
  | none =>
    rw [collector_of_none hc] at run
    cases run
    rfl
  | some c =>
    rw [collector_of_some hc] at run
    cases run

theorem Owns.bind (owns : Owns sc b n self act) (safe : Safe sc b n self act)
    (next : ∀ a, Owns sc b n self (f a)) : Owns sc b n self (act >>= f) := by
  intro L Q s A hn spent fault s' run
  have after := safe L Q s A hn spent
  rw [bind_apply] at run
  cases first : act s with
  | ok a s₁ =>
    rw [first] at run
    unfold Always at after
    rw [first] at after
    exact next a L Q s₁ after.there (Nat.le_trans after.unspent_le hn)
      ((Steps.later after.steps).isSpent spent) fault s' run
  | error e s₁ =>
    rw [first] at run
    cases run
    exact owns L Q s A hn spent _ _ first

theorem Owns.answer (owns : Owns sc b n self act) (g : α → β) :
    Owns sc b n self (act >>= fun a => pure (g a)) := by
  intro L Q s A hn spent fault s' run
  rw [bind_apply] at run
  cases first : act s with
  | ok a s₁ =>
    rw [first] at run
    cases run
  | error e s₁ =>
    rw [first] at run
    cases run
    exact owns L Q s A hn spent _ _ first

theorem owns_of_refusedIff {reason : Machine → Prop}
    (iff : ∀ {L Q s}, At sc b L Q s → s.memory.heap.unspent sc ≤ n →
      act.RefusedIff s (reason s)) : Owns sc b n self act :=
  fun _ _ _ A hn _ _ _ run => (iff A hn).isOwn run

theorem retain_owns : Owns sc b n self (retain x) :=
  owns_of_refusedIff fun {_ _ s} _ _ => retain_refusedIff x s

theorem setFinalizer_owns (finalizer : Option Script) :
    Owns sc b n self (setFinalizer x finalizer) :=
  owns_of_refusedIff fun {_ _ s} _ _ => setFinalizer_refusedIff x finalizer s

theorem addEdge_owns : Owns sc b n self (addEdge x y) :=
  owns_of_refusedIff fun {_ _ s} _ _ => addEdge_refusedIff x y s

theorem release_owns (H : hooks.Sound sc b n) (may : sc.may .giveUp) :
    Owns sc b n self (release hooks x) :=
  owns_of_refusedIff fun A hn => release_refusedIff H may A hn x

theorem removeEdge_owns (H : hooks.Sound sc b n) (may : sc.may .cut) :
    Owns sc b n self (removeEdge hooks x y) :=
  owns_of_refusedIff fun A hn => removeEdge_refusedIff H may A hn x y

theorem allocate_owns (H : hooks.Sound sc b n)
    (may : ∀ {deed}, deed ∈ [Deed.allocate, .collect] → sc.may deed) (kind : Kind)
    (typeName : String) : Owns sc b n self (allocate hooks kind typeName) := by
  intro L Q s A hn _ fault s' run
  obtain ⟨s'', ok, -⟩ := allocate_leads H may A hn kind typeName
  rw [run] at ok
  cases ok

theorem allocateMany_owns (H : hooks.Sound sc b n)
    (may : ∀ {deed}, deed ∈ [Deed.allocate, .collect] → sc.may deed) (kind : Kind)
    (last : ObjectId) (count : Nat) : Owns sc b n self (allocateMany hooks kind last count) := by
  induction count generalizing last with
  | zero => exact owns_pure last
  | succ count ih => exact (allocate_owns H may _ _).bind (allocate_safe H may _ _) ih

theorem extendChain_owns (H : hooks.Sound sc b n)
    (may : ∀ {deed}, deed ∈ [Deed.allocate, .collect, .link, .giveUp] → sc.may deed)
    (last : ObjectId) (count : Nat) : Owns sc b n self (extendChain hooks last count) := by
  have allocating {deed : Deed} (mem : deed ∈ [Deed.allocate, .collect]) : sc.may deed :=
    may (List.mem_append_left [Deed.link, .giveUp] mem)
  induction count generalizing last with
  | zero => exact owns_pure last
  | succ count ih =>
    have fastening {deed : Deed} (mem : deed ∈ [Deed.link, .giveUp]) : sc.may deed :=
      may (List.mem_append_right [Deed.allocate, .collect] mem)
    refine (allocate_owns H allocating _ _).bind (allocate_safe H allocating _ _) fun next => ?_
    have fastened : Owns sc b n self (fasten hooks last next) :=
      addEdge_owns.bind (addEdge_safe (may (by simp))) fun _ => release_owns H (may (by simp))
    exact fastened.bind (fasten_safe H fastening last next) fun _ => ih next

theorem chain_owns (H : hooks.Sound sc b n)
    (may : ∀ {deed}, deed ∈ [Deed.allocate, .collect, .link, .giveUp] → sc.may deed) (length : Nat)
    (close : Bool) : Owns sc b n self (chain hooks length close) := by
  have allocating {deed : Deed} (mem : deed ∈ [Deed.allocate, .collect]) : sc.may deed :=
    may (List.mem_append_left [Deed.link, .giveUp] mem)
  refine (allocate_owns H allocating _ _).bind (allocate_safe H allocating _ _) fun head => ?_
  refine (extendChain_owns H may head _).bind (extendChain_safe H may head _) fun last => ?_
  cases close with
  | true => exact addEdge_owns.bind (addEdge_safe (may (by simp))) fun _ => owns_pure head
  | false => exact owns_pure head

/-- Of a collection only the collector's own refusals and its report reach the caller. -/
theorem collect_owns (H : hooks.Sound sc b n) (may : sc.may .collect) (i : Int) :
    Owns sc b n self (collect hooks i) := by
  intro L Q s A hn _ fault s' run
  cases hc : s.memory.collector with
  | none =>
    rw [collect_of_none hc] at run
    cases run
    rfl
  | some c =>
    cases collecting : c.collecting with
    | true =>
      rw [collect_of_collecting hc collecting] at run
      cases run
      rfl
    | false =>
      cases hg : Generation.ofInt? i with
      | none =>
        rw [collect_of_invalid hc collecting hg] at run
        cases run
        rfl
      | some g =>
        obtain rfl : b = false := (A.collecting_eq hc).symm.trans collecting
        obtain ⟨pass, hp, P⟩ := H.pass rfl may
        obtain ⟨outcome, s₁, passed, leads, -⟩ := Pass.run_leads (g := g) P A hn hc
        obtain ⟨c₁, hc₁⟩ := leads.exists_collector hc
        rw [collect_apply hc collecting hg hp passed hc₁] at run
        split at run
        · cases run
          rfl
        · cases run

/-- A change of the settings fails where the collector refuses it. -/
theorem configure_owns {f : Collector → Except Fault Collector}
    (own : ∀ {c fault}, f c = .error fault → fault.isOwn = true) :
    Owns sc b n self (configure f) := by
  intro L Q s A hn spent fault s' run
  cases hc : s.memory.collector with
  | none =>
    simp only [configure, bind_apply, collector_of_none hc] at run
    cases run
    rfl
  | some c =>
    cases refused : f c with
    | error e =>
      simp only [configure, bind_apply, collector_of_some hc, refused, ofExcept_error] at run
      cases run
      exact own refused
    | ok c' =>
      simp only [configure, bind_apply, collector_of_some hc, refused, ofExcept_ok,
        modifyCollector_apply] at run
      cases run

theorem setThresholds_owns (counts : PerGeneration Nat) :
    Owns sc b n self (setThresholds counts) := by
  apply configure_owns
  intro c fault run
  cases checked : Thresholds.ofCounts counts with
  | ok thresholds =>
    simp only [Tracker.setThresholds, checked, bind, Except.bind, pure, Except.pure] at run
    cases run
  | error e =>
    simp only [Tracker.setThresholds, checked, bind, Except.bind] at run
    cases run
    -- the only reason is a threshold of zero
    unfold Thresholds.ofCounts at checked
    split at checked
    · cases checked
      rfl
    · cases checked

theorem clearGarbage_owns (H : hooks.Sound sc b n)
    (may : ∀ {deed}, deed ∈ [Deed.disown, .giveUp] → sc.may deed) :
    Owns sc b n self (clearGarbage hooks) := by
  have releases (xs : List ObjectId) : Owns sc b n self (xs.forM (release hooks)) := by
    induction xs with
    | nil => exact owns_pure ()
    | cons x xs ih =>
      have giveUp : sc.may .giveUp := may (by simp)
      exact (release_owns H giveUp).bind (release_safe H giveUp) fun _ => ih
  refine owns_collector.bind still_collector.safe fun c => ?_
  refine Owns.bind (owns_of_ok fun s => ⟨(), _, modifyCollector_apply _ s⟩)
    (fun L Q s A _ _ => always_of_ok (modifyCollector_apply _ s) (A.disown (may (by simp))))
    fun _ => ?_
  exact (releases c.garbage).answer fun _ => c.garbage.length

theorem addCallback_owns (phase : CallbackPhase) (script : Script) :
    Owns sc b n self (addCallback phase script) := by
  intro L Q s _ _ _ fault s' run
  cases hc : s.memory.collector with
  | none =>
    rw [addCallback_of_none hc] at run
    cases run
    rfl
  | some c =>
    rw [addCallback_of_some hc] at run
    cases run

theorem advance_owns {α : Type} (slot : Nat) (take : Snapshot → Heap → α × Snapshot) :
    Owns sc b n self (advance slot take) := owns_of_ok fun _ => ⟨_, _, rfl⟩

/-- A question fails if there is no collector to answer it, or no such object. -/
theorem ask_owns (self : ObjectId) (q : Query) : Owns sc b n self (ask self q) := by
  have heap {f : Heap → Act Answer} (next : ∀ h, Owns sc b n self (f h)) :
      Owns sc b n self (Act.heap >>= f) :=
    Owns.bind (owns_of_ok fun s => ⟨_, s, heap_apply s⟩) still_heap.safe next
  have memory {f : Memory → Act Answer} (next : ∀ m, Owns sc b n self (f m)) :
      Owns sc b n self (Act.memory >>= f) :=
    Owns.bind (owns_of_ok fun s => ⟨_, s, memory_apply s⟩) still_memory.safe next
  have collector {f : Collector → Act Answer} (next : ∀ c, Owns sc b n self (f c)) :
      Owns sc b n self (Act.collector >>= f) := owns_collector.bind still_collector.safe next
  have found {α : Type} {f : Object → α} {g : α → Answer} {h : Heap} {x : ObjectId} :
      Owns sc b n self (Act.ofExcept (h.get x) >>= fun o => pure (g (f o))) :=
    (owns_ofExcept Heap.get_isOwn).answer fun o => g (f o)
  have referents {h : Heap} {x : ObjectId} : Owns sc b n self
      (Act.ofExcept (h.referents x) >>= fun xs => pure (Answer.ids xs)) := by
    refine (owns_ofExcept fun {fault} run => ?_).answer _
    cases hx : h.get x with
    | ok o =>
      simp only [Heap.referents, hx, bind, Except.bind] at run
      cases run
    | error e =>
      simp only [Heap.referents, hx, bind, Except.bind] at run
      cases run
      exact Heap.get_isOwn hx
  cases q with
  | contains _ | find _ | roots | objectCount | freedCount => exact heap fun _ => owns_pure _
  | report => exact memory fun _ => owns_pure _
  | get _ | strongCount _ => exact heap fun _ => found
  | references _ => exact heap fun _ => referents
  | isEnabled | thresholds | counts | isTracked _ | generationOf _ | stats | totals | isCollecting
  | debug | policy | garbage => exact collector fun _ => owns_pure _
  | tracked | referrers _ => exact memory fun _ => collector fun _ => owns_pure _
  | referents _ => exact collector fun _ => heap fun _ => referents

theorem call_owns (H : hooks.Sound sc b n) {c : Call}
    (may : ∀ {deed}, deed ∈ c.deeds → sc.may deed)
    (silent : ∀ message, c ≠ .throw message) : Owns sc b n self (call hooks self c) := by
  cases c with
  | allocate kind typeName => exact (allocate_owns H may kind typeName).answer _
  | allocateMany kind count => exact (allocateMany_owns H may kind 0 count).answer _
  | chain length close => exact (chain_owns H may length close).answer _
  | retain id => exact retain_owns.answer _
  | release id => exact (release_owns H (may List.mem_cons_self)).answer _
  | addEdge source target => exact addEdge_owns.answer _
  | removeEdge source target => exact (removeEdge_owns H (may List.mem_cons_self)).answer _
  | clearFinalizer id => exact (setFinalizer_owns none).answer _
  | collect generation => exact (collect_owns H (may List.mem_cons_self) generation).answer _
  | enable | disable | setDebug _ | setPolicy _ | clearCallbacks =>
    exact (configure_owns fun e => by cases e).answer _
  | setThresholds counts => exact (setThresholds_owns counts).answer _
  | clearGarbage => exact (clearGarbage_owns H may).answer _
  | snapshot slot =>
    exact (owns_collector.bind still_collector.safe fun _ =>
      owns_of_ok fun s => ⟨_, _, rfl⟩).answer _
  | snapshotNext slot | snapshotRemaining slot => exact (advance_owns slot _).answer _
  | snapshotSize slot => exact owns_of_ok fun s => ⟨_, _, rfl⟩
  | throw message => exact absurd rfl (silent message)
  | announce name => exact owns_of_ok fun s => ⟨_, _, rfl⟩

/-- An operation of a host may end with its own faults only. -/
theorem perform_mayFail (H : hooks.Sound sc b n) (allowed : sc.allows op) (A : At sc b L Q s)
    (hn : s.memory.heap.unspent sc ≤ n) (spent : s.memory.heap.isSpent self = true)
    {fault : Fault} (run : perform hooks self op s = .error fault s') :
    op.mayFail fault = true := by
  have own (owns : Owns sc b n self (perform hooks self op)) : op.mayFail fault = true :=
    Op.mayFail_of_isOwn (owns L Q s A hn spent fault s' run)
  cases op with
  | call c =>
    by_cases throws : ∃ message, c = .throw message
    · obtain ⟨message, rfl⟩ := throws
      cases run
      exact decide_eq_true rfl
    · exact own (call_owns H (sc.deeds allowed) fun message e => throws ⟨message, e⟩)
  | ask q => exact own (ask_owns self q)
  | raw r => exact absurd (sc.host allowed) Bool.false_ne_true
  | setFinalizer id script => exact own ((setFinalizer_owns _).answer _)
  | addCallback phase script => exact own ((addCallback_owns phase script).answer _)

end Host

namespace Machine

/-- Operations on the graph fail exactly where they should. In every attained machine, and wherever
a hook performs a step in the course of an operation, each of them is refused for its own reasons
and no others, as a reference that cannot be used and without any change; passes run to their end
and finalizers to theirs. Neither the operation nor any step of a hook ends with a fault of another
hook, with a count that contradicts the references, or with an object that is to be taken out but is
not there. -/
theorem Attained.operations_strict (run : Attained s) (host : op.isHostOp = true) :
    s.Throughout op Host.Strict ∧
      (∀ fault, (s.perform op).1.outcome = .error fault → op.mayFail fault = true) ∧
      ∀ m ∈ (s.perform op).1.moments, ∀ step before fault,
        m.event = .performed step before (.error fault) → step.mayFail fault = true := by
  have outside := Op.isOutsideOp_of_isHostOp host
  have A := run.begun op
  have allowed : (s.memory.scope op).allows op :=
    ⟨host, fun x hx => List.mem_toFinset.mpr (List.mem_append_right _ hx)⟩
  refine ⟨run.throughout outside fun active passes A hn => Host.strict_of_at active passes A hn,
    fun fault failed => ?_, fun m mem step before fault e => ?_⟩
  · cases performed : Host.perform (s.hooksFor op) 0 op s.forget with
    | ok a s' =>
      rw [perform_of_ok performed] at failed
      cases failed
    | error e s' =>
      rw [perform_of_error performed] at failed
      cases failed
      exact Host.perform_mayFail (Hooks.outside_sound _ trivial _) allowed A
        (s.memory.unspent_le_budget op) A.sound.balanced.isSpent_zero performed
  · rcases run.adds outside m mem with ⟨b, books, plain⟩ | ⟨⟨index, phase, info, e'⟩, -⟩
    · obtain ⟨sc, n, self, L, Q, t, t', scene, -, -, performed⟩ := plain.origin e
      have failed : Host.perform (.within b n) self step t = .error fault t' := by
        rw [Act.attempt_apply] at performed
        split at performed <;> cases performed
        assumption
      exact Host.perform_mayFail (Hooks.within_sound sc n scene.passes) scene.allowed scene.there
        scene.budget scene.spent failed
    · rw [e] at e'
      cases e'

/-- A finalizer whose steps are all refused: the object it releases has no root reference, the one
it refers to is dead, and there is no such edge. -/
def fumble : Script :=
  [⟨.call (.release .self), true⟩, ⟨.call (.retain (.id 9)), true⟩,
    ⟨.call (.removeEdge .self (.id 1)), true⟩, ⟨.call (.collect 1), false⟩]

theorem operations_strict_fumble :
    (abandonedCycle fumble).Throughout (.call (.collect 2)) Host.Strict ∧
      (∀ m ∈ ((abandonedCycle fumble).perform (.call (.collect 2))).1.moments,
        ∀ step before fault, m.event = .performed step before (.error fault) →
          step.mayFail fault = true) ∧
      ((abandonedCycle fumble).perform (.call (.collect 2))).1.moments.filterMap (fun m =>
        match m.event with
        | .performed _ _ (.error fault) => some fault
        | _ => none) = [.invalidReference 1 .noRoot, .invalidReference 9 .unknown,
          .invalidReference 1 (.noEdge 1), .reentrantCollection] :=
  have host : (Op.call (.collect 2)).isHostOp = true := rfl
  have law := (attained_abandonedCycle fumble rfl).operations_strict host
  ⟨law.1, law.2.2, by decide +kernel⟩

end Machine

end Reclaim
