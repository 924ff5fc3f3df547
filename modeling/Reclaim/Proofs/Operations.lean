import Reclaim.Proofs.Passes

/-!
# Operations in steps

Every operation of a host takes steps only, whether it succeeds or is refused, after which nothing
is loose or marked as being freed that was not so before. `Act.Safe` says this of an action; it is
kept by sequencing, so an operation made of several is safe because they are.

Releases and removals of edges succeed as soon as the host or the source has the reference, and
allocations always do (`Host.release_leads`, `Host.removeEdge_leads`, `Host.allocate_leads`).
-/

set_option autoImplicit false

namespace Reclaim

open Machine

variable {sc : Scope} {b : Bool} {n : Nat} {L : Loose} {Q : ObjectId → Prop} {s s' : Machine}
  {x y self : ObjectId}

/-- The hooks of an operation are run in steps, as long as no more than `n` finalizers are left. -/
structure Hooks.Sound (sc : Scope) (b : Bool) (n : Nat) (hooks : Hooks) : Prop where
  eq_within : hooks = .within b n
  finalization : hooks.finalization.Sound sc b n
  passes : b = false → sc.passes
  pass : b = false → sc.may .collect → ∃ pass, hooks.pass? = some pass ∧ pass.Sound sc n

namespace Act

variable {α β : Type} {act : Act α} {f : α → Act β}

/-- The action leaves the machine as it is. -/
def Still (act : Act α) : Prop := ∀ s, act.Always s (· = s)

theorem still_pure (a : α) : Still (pure a) := fun _ => rfl

theorem still_throw (e : Fault) : Still (throw e : Act α) := fun _ => rfl

theorem still_memory : Still memory := fun _ => rfl

theorem still_heap : Still heap := fun _ => rfl

theorem still_ofExcept (r : Except Fault α) : Still (ofExcept r) := by
  intro s
  cases r <;> exact rfl

theorem still_collector : Still collector := by
  intro s
  cases hc : s.memory.collector with
  | none => exact always_of_error (collector_of_none hc) rfl
  | some c => exact always_of_ok (collector_of_some hc) rfl

theorem Still.bind (still : Still act) (next : ∀ a, Still (f a)) : Still (act >>= f) := by
  intro s
  refine Always.bind (still s) (fun a s' _ same => ?_) fun e s' _ same => same
  rw [same]
  exact next a s

/-- Whatever its outcome, the action takes steps, after which nothing more is loose or marked. The
object `self` is the one whose finalizer performs it. -/
def Safe (sc : Scope) (b : Bool) (n : Nat) (self : ObjectId) (act : Act α) : Prop :=
  ∀ L Q s, At sc b L Q s → s.memory.heap.unspent sc ≤ n → s.memory.heap.isSpent self = true →
    act.Always s (Leads sc b L s L Q)

theorem Still.safe (still : Still act) : Safe sc b n self act :=
  fun _ _ s A _ _ => (still s).mono fun _ same => same ▸ A.here

theorem Safe.bind (safe : Safe sc b n self act) (next : ∀ a, Safe sc b n self (f a)) :
    Safe sc b n self (act >>= f) := by
  intro L Q s A hn spent
  refine Always.bind (safe L Q s A hn spent) (fun a s' _ leads => ?_) fun _ _ _ leads => leads
  -- the owner of the script stays spent while the first part runs
  have later := (Steps.later leads.steps).isSpent spent
  exact (next a L Q s' leads.there (Nat.le_trans leads.unspent_le hn) later).mono fun _ =>
    leads.trans

theorem Safe.answer (safe : Safe sc b n self act) (g : α → β) :
    Safe sc b n self (act >>= fun a => pure (g a)) :=
  safe.bind fun a => (still_pure (g a)).safe

theorem Safe.forM {g : α → Act Unit} (safe : ∀ a, Safe sc b n self (g a)) (xs : List α) :
    Safe sc b n self (xs.forM g) := by
  induction xs with
  | nil => exact (still_pure ()).safe
  | cons a xs ih => exact (safe a).bind fun _ => ih

end Act

open Act

namespace Heap

variable {h h' : Heap}

/-- Marks of dying objects are as they were if every object's is. -/
theorem FreeingIn.congr (F : h.FreeingIn Q)
    (same : ∀ y, (h'.get? y).map (·.freeing) = (h.get? y).map (·.freeing)) : h'.FreeingIn Q := by
  intro y p hp f
  have e := same y
  rw [hp, Option.map_some, eq_comm, Option.map_eq_some_iff] at e
  obtain ⟨o, ho, e⟩ := e
  exact F y o ho (e.trans f)

section View

variable {α : Type} {view : Object → α}

theorem map_get?_retain (run : h.retain x = .ok h') (blind : ∀ o, view o.addRoot.incRef = view o) :
    ∀ y, (h'.get? y).map view = (h.get? y).map view := by
  obtain ⟨o, hx, rfl⟩ := exists_of_retain run
  exact map_get?_put hx (blind o)

theorem map_get?_giveUpRoot (run : h.giveUpRoot x = .ok h')
    (blind : ∀ o rootCount, view { o with rootCount } = view o) :
    ∀ y, (h'.get? y).map view = (h.get? y).map view := by
  obtain ⟨o, n, hx, -, rfl⟩ := exists_of_giveUpRoot run
  exact map_get?_put hx (blind o n)

theorem map_get?_addEdge {z : ObjectId} (run : h.addEdge x z = .ok h')
    (blind : ∀ o, view (o.appendReference z) = view o ∧ view o.incRef = view o) :
    ∀ y, (h'.get? y).map view = (h.get? y).map view := by
  obtain ⟨o, p, hx, -, -, rfl⟩ := exists_of_addEdge run
  exact fun y => (map_get?_modify (fun o => (blind o).2) z y).trans
    (map_get?_put hx (blind o).1 y)

theorem map_get?_cut {z : ObjectId} (run : h.cut x z = .ok h')
    (blind : ∀ o references, view { o with references } = view o) :
    ∀ y, (h'.get? y).map view = (h.get? y).map view := by
  obtain ⟨o, hx, -, rfl⟩ := exists_of_cut run
  exact map_get?_put hx (blind o _)

end View

theorem FreeingIn.retain (F : h.FreeingIn Q) (run : h.retain x = .ok h') : h'.FreeingIn Q :=
  F.congr (map_get?_retain run fun _ => rfl)

theorem FreeingIn.giveUpRoot (F : h.FreeingIn Q) (run : h.giveUpRoot x = .ok h') :
    h'.FreeingIn Q :=
  F.congr (map_get?_giveUpRoot run fun _ _ => rfl)

theorem FreeingIn.addEdge (F : h.FreeingIn Q) (run : h.addEdge x y = .ok h') :
    h'.FreeingIn Q :=
  F.congr (map_get?_addEdge run fun _ => ⟨rfl, rfl⟩)

theorem FreeingIn.cut (F : h.FreeingIn Q) (run : h.cut x y = .ok h') : h'.FreeingIn Q :=
  F.congr (map_get?_cut run fun _ _ => rfl)

theorem FreeingIn.setFinalizer {finalizer : Option Script} (F : h.FreeingIn Q)
    (run : h.setFinalizer x finalizer = .ok h') : h'.FreeingIn Q := by
  obtain ⟨o, hx, rfl⟩ := exists_of_setFinalizer run
  exact F.congr (map_get?_put hx (by rfl))

/-- A finalizer that is taken away is not pending. -/
theorem pending?_setFinalizer (run : h.setFinalizer x none = .ok h') (none : h.pending? y = none) :
    h'.pending? y = .none := by
  obtain ⟨o, hx, rfl⟩ := exists_of_setFinalizer run
  rw [pending?, get?_put]
  split
  · unfold Object.pendingFinalizer?
    rw [Option.bind_some]
    split <;> rfl
  · exact none

end Heap

/-- The list of saved garbage is emptied in a step. -/
theorem Machine.At.disown (A : At sc b L Q s) (may : sc.may .disown) :
    Leads sc b L s L Q (s.mapCollector ({ · with garbage := [] })) := by
  have follows : Follows sc s (s.mapCollector ({ · with garbage := [] })) :=
    .of_collector rfl rfl (fun _ _ => .refl _) (fun _ _ _ => rfl) fun _ _ => id
  refine A.step (.disown may) A.freeing ?_ (follows.quiet rfl (Option.map_map ..))
  show Option.any _ (Option.map _ _) = Option.any _ _
  cases s.memory.collector <;> rfl

/-- A pass is wanted only while none is running. -/
theorem Machine.At.idle_of_wantsPass (A : At sc b L Q s) (wants : s.memory.wantsPass = true) :
    b = false ∧ ∃ c, s.memory.collector = some c := by
  obtain ⟨c, hc, wanted⟩ := (Option.any_eq_true _ _).mp wants
  refine ⟨?_, c, hc⟩
  rw [← A.collecting_eq hc]
  simp only [Collector.wantsPass, Bool.and_eq_true, Bool.not_eq_true'] at wanted
  exact wanted.2

namespace Host

variable {hooks : Hooks}

/-- An edit that is refused changes nothing. -/
theorem edit_safe {f : Heap → Except Fault Heap}
    (leads : ∀ {L Q s h'}, At sc b L Q s → s.memory.heap.isSpent self = true →
      f s.memory.heap = .ok h' → Leads sc b L s L Q (s.withHeap h')) :
    Safe sc b n self (Act.edit f) := by
  intro L Q s A _ spent
  cases run : f s.memory.heap with
  | ok h' => exact always_of_ok (edit_of_ok run) (leads A spent run)
  | error e => exact always_of_error (edit_of_error run) A.here

theorem retain_safe (may : sc.may .retain) : Safe sc b n self (retain x) :=
  edit_safe fun A _ run => A.edit (.retain may run) (A.freeing.retain run)
    (Heap.map_get?_retain run fun _ => rfl)

theorem addEdge_safe (may : sc.may .link) : Safe sc b n self (addEdge x y) :=
  edit_safe fun A _ run => A.edit (.addEdge may run) (A.freeing.addEdge run)
    (Heap.map_get?_addEdge run fun _ => ⟨rfl, rfl⟩)

theorem setFinalizer_safe (may : sc.may .finalizer) {finalizer : Option Script}
    (allowed : ∀ script, finalizer = some script → sc.hooks script ∧ (x ∈ sc.names ∨ x = self))
    (fixed : sc.Fixed → finalizer = none) : Safe sc b n self (setFinalizer x finalizer) := by
  refine edit_safe fun {L Q s h'} A spent run => ?_
  have follows : Follows sc s (s.withHeap h') := .of_heap rfl rfl fun holds =>
    Heap.pending?_setFinalizer (fixed holds ▸ run)
  refine A.step (.edit (.setFinalizer may run fun script e => ?_)) (A.freeing.setFinalizer run)
    rfl (follows.quiet rfl rfl)
  obtain ⟨hook, name | rfl⟩ := allowed script e
  · exact ⟨hook, .inl name⟩
  · exact ⟨hook, .inr spent⟩

theorem release_of_ok {h' : Heap} (run : s.memory.heap.giveUpRoot x = .ok h') :
    release hooks x s = Release.dropReference hooks.finalization x (s.withHeap h') := by
  simp only [release, bind_apply, edit_of_ok (f := (·.giveUpRoot x)) run]

theorem release_of_error {e : Fault} (run : s.memory.heap.giveUpRoot x = .error e) :
    release hooks x s = .error e s := by
  simp only [release, bind_apply, edit_of_error (f := (·.giveUpRoot x)) run]

theorem removeEdge_of_ok {h' : Heap} (run : s.memory.heap.cut x y = .ok h') :
    removeEdge hooks x y s = Release.dropReference hooks.finalization y (s.withHeap h') := by
  simp only [removeEdge, bind_apply, edit_of_ok (f := (·.cut x y)) run]

theorem removeEdge_of_error {e : Fault} (run : s.memory.heap.cut x y = .error e) :
    removeEdge hooks x y s = .error e s := by
  simp only [removeEdge, bind_apply, edit_of_error (f := (·.cut x y)) run]

/-- A reference that the host has is given back. -/
theorem release_leads (H : hooks.Sound sc b n) (may : sc.may .giveUp) (A : At sc b L Q s)
    (hn : s.memory.heap.unspent sc ≤ n) {h' : Heap} (run : s.memory.heap.giveUpRoot x = .ok h') :
    ∃ s', release hooks x s = .ok () s' ∧ Leads sc b L s L Q s' := by
  have given : Leads sc b L s (L.add [x]) Q (s.withHeap h') :=
    A.edit (.giveUpRoot may run) (A.freeing.giveUpRoot run)
      (Heap.map_get?_giveUpRoot run fun _ _ => rfl)
  -- the reference that the host gave up is loose until it is given back
  obtain ⟨s', dropped, leads⟩ := Release.dropReference_leads H.finalization given.there
    (Nat.le_trans given.unspent_le hn)
  exact ⟨s', (release_of_ok run).trans dropped, given.trans leads⟩

theorem release_safe (H : hooks.Sound sc b n) (may : sc.may .giveUp) :
    Safe sc b n self (release hooks x) := by
  intro L Q s A hn _
  cases run : s.memory.heap.giveUpRoot x with
  | ok h' =>
    obtain ⟨s', released, leads⟩ := release_leads H may A hn run
    exact always_of_ok released leads
  | error e => exact always_of_error (release_of_error run) A.here

/-- A reference that the source has is taken from it. -/
theorem removeEdge_leads (H : hooks.Sound sc b n) (may : sc.may .cut) (A : At sc b L Q s)
    (hn : s.memory.heap.unspent sc ≤ n) {h' : Heap} (run : s.memory.heap.cut x y = .ok h') :
    ∃ s', removeEdge hooks x y s = .ok () s' ∧ Leads sc b L s L Q s' := by
  have given : Leads sc b L s (L.add [y]) Q (s.withHeap h') :=
    A.edit (.cut may run) (A.freeing.cut run) (Heap.map_get?_cut run fun _ _ => rfl)
  obtain ⟨s', dropped, leads⟩ := Release.dropReference_leads H.finalization given.there
    (Nat.le_trans given.unspent_le hn)
  exact ⟨s', (removeEdge_of_ok run).trans dropped, given.trans leads⟩

theorem removeEdge_safe (H : hooks.Sound sc b n) (may : sc.may .cut) :
    Safe sc b n self (removeEdge hooks x y) := by
  intro L Q s A hn _
  cases run : s.memory.heap.cut x y with
  | ok h' =>
    obtain ⟨s', removed, leads⟩ := removeEdge_leads H may A hn run
    exact always_of_ok removed leads
  | error e => exact always_of_error (removeEdge_of_error run) A.here

/-! ## Allocation -/

theorem allocate_apply (hooks : Hooks) (kind : Kind) (typeName : String) (s : Machine) :
    allocate hooks kind typeName s =
      (afterAllocation hooks (s.memory.allocate kind typeName).2 >>= fun _ =>
        pure (s.memory.allocate kind typeName).1)
        (s.withMemory (s.memory.allocate kind typeName).2) := by
  simp only [allocate, bind_apply, memory_apply, setMemory_apply]

/-- The passes that an allocation starts. -/
theorem afterAllocation_leads (H : hooks.Sound sc b n) (may : sc.may .collect) (A : At sc b L Q s)
    (hn : s.memory.heap.unspent sc ≤ n) :
    ∃ s', afterAllocation hooks s.memory s = .ok () s' ∧ Leads sc b L s L Q s' := by
  unfold afterAllocation
  cases wants : s.memory.wantsPass with
  | false => exact ⟨s, rfl, A.here⟩
  | true =>
    obtain ⟨rfl, c, hc⟩ := A.idle_of_wantsPass wants
    obtain ⟨pass, hpass, P⟩ := H.pass rfl may
    rw [hpass]
    exact Pass.runDue_leads P A hn hc

theorem discreet_allocate (s : Machine) (kind : Kind) (typeName : String) :
    Discreet sc b s (s.withMemory (s.memory.allocate kind typeName).2) := by
  have pace := s.memory.pace?_allocate kind typeName
  rw [Memory.allocate_eq] at pace ⊢
  refine Follows.quiet ?_ rfl ?_
  · refine .of_collector rfl rfl (fun _ _ => .refl _) (fun _ _ _ => rfl) fun _ {y} none => ?_
    -- a new object has no finalizer
    rw [withMemory_memory, Heap.pending?, Heap.get?_allocate]
    split
    · rfl
    · exact none
  · rw [withMemory_memory, Memory.books?_eq, pace, ← Memory.books?_eq]

/-- The new object is put into the heap, and the collector files it. -/
theorem insert_leads (may : sc.may .allocate) (A : At sc b L Q s) (kind : Kind)
    (typeName : String) :
    Leads sc b L s L Q (s.withMemory (s.memory.allocate kind typeName).2) := by
  refine A.step (.allocate kind typeName may) ?_ ?_ (discreet_allocate s kind typeName)
  · rw [Memory.allocate_eq]
    intro y p hp f
    rw [withMemory_memory, Heap.get?_allocate] at hp
    split at hp
    · cases hp
      cases f
    · exact A.freeing y p hp f
  · rw [Memory.allocate_eq]
    show Option.any _ (Option.map _ _) = Option.any _ _
    cases s.memory.collector <;> rfl

/-- An allocation answers with the next handle, whatever the passes that it starts do. -/
theorem allocate_of_ok {kind : Kind} {typeName : String}
    (run : afterAllocation hooks (s.memory.allocate kind typeName).2
      (s.withMemory (s.memory.allocate kind typeName).2) = .ok () s') :
    allocate hooks kind typeName s = .ok s.memory.heap.nextId s' := by
  have id : (s.memory.allocate kind typeName).1 = s.memory.heap.nextId := by
    rw [Memory.allocate_eq]
  simp only [allocate_apply, bind_apply, run, pure_apply, id]

theorem allocate_leads (H : hooks.Sound sc b n)
    (may : ∀ {deed}, deed ∈ [Deed.allocate, .collect] → sc.may deed) (A : At sc b L Q s)
    (hn : s.memory.heap.unspent sc ≤ n) (kind : Kind) (typeName : String) :
    ∃ s', allocate hooks kind typeName s = .ok s.memory.heap.nextId s' ∧
      Leads sc b L s L Q s' := by
  have inserted := insert_leads (may (by simp)) A kind typeName
  obtain ⟨s', run, leads⟩ := afterAllocation_leads H (may (by simp)) inserted.there
    (Nat.le_trans inserted.unspent_le hn)
  exact ⟨s', allocate_of_ok run, inserted.trans leads⟩

theorem allocate_safe (H : hooks.Sound sc b n)
    (may : ∀ {deed}, deed ∈ [Deed.allocate, .collect] → sc.may deed) (kind : Kind)
    (typeName : String) : Safe sc b n self (allocate hooks kind typeName) := by
  intro L Q s A hn _
  obtain ⟨s', run, leads⟩ := allocate_leads H may A hn kind typeName
  exact always_of_ok run leads

theorem allocateMany_safe (H : hooks.Sound sc b n)
    (may : ∀ {deed}, deed ∈ [Deed.allocate, .collect] → sc.may deed) (kind : Kind)
    (last : ObjectId) (count : Nat) : Safe sc b n self (allocateMany hooks kind last count) := by
  induction count generalizing last with
  | zero => exact (still_pure last).safe
  | succ count ih => exact (allocate_safe H may kind plainTypeName).bind ih

theorem fasten_safe (H : hooks.Sound sc b n)
    (may : ∀ {deed}, deed ∈ [Deed.link, .giveUp] → sc.may deed) (last next : ObjectId) :
    Safe sc b n self (fasten hooks last next) :=
  (addEdge_safe (may (by simp))).bind fun _ => release_safe H (may (by simp))

theorem extendChain_safe (H : hooks.Sound sc b n)
    (may : ∀ {deed}, deed ∈ [Deed.allocate, .collect, .link, .giveUp] → sc.may deed)
    (last : ObjectId) (count : Nat) : Safe sc b n self (extendChain hooks last count) := by
  have allocating {deed : Deed} (mem : deed ∈ [Deed.allocate, .collect]) : sc.may deed :=
    may (List.mem_append_left [Deed.link, .giveUp] mem)
  induction count generalizing last with
  | zero => exact (still_pure last).safe
  | succ count ih =>
    have fastening {deed : Deed} (mem : deed ∈ [Deed.link, .giveUp]) : sc.may deed :=
      may (List.mem_append_right [Deed.allocate, .collect] mem)
    exact (allocate_safe H allocating _ _).bind fun next =>
      (fasten_safe H fastening last next).bind fun _ => ih next

theorem chain_safe (H : hooks.Sound sc b n)
    (may : ∀ {deed}, deed ∈ [Deed.allocate, .collect, .link, .giveUp] → sc.may deed) (length : Nat)
    (close : Bool) : Safe sc b n self (chain hooks length close) := by
  have allocating {deed : Deed} (mem : deed ∈ [Deed.allocate, .collect]) : sc.may deed :=
    may (List.mem_append_left [Deed.link, .giveUp] mem)
  refine (allocate_safe H allocating _ _).bind fun head =>
    (extendChain_safe H may head (length - 1)).bind fun last => ?_
  cases close with
  | true => exact (addEdge_safe (may (by simp))).bind fun _ => (still_pure head).safe
  | false => exact (still_pure head).safe

/-! ## Passes on demand -/

/-- A collection that is not refused is a pass. -/
theorem collect_apply {c : Collector} {g : Generation} {i : Int} {pass : PassHooks}
    {outcome : PassOutcome} (hc : s.memory.collector = some c) (idle : c.collecting = false)
    (hg : Generation.ofInt? i = some g) (hp : hooks.pass? = some pass)
    (run : Pass.run pass g s = .ok outcome s') {c' : Collector}
    (hc' : s'.memory.collector = some c') :
    collect hooks i s =
      if c'.policy = .raise && !outcome.resurrected.isEmpty then
        .error (.resurrectionDetected outcome.resurrected outcome.collected) s'
      else .ok outcome.collected s' := by
  cases raises : (decide (c'.policy = .raise) && !outcome.resurrected.isEmpty) <;>
    simp only [collect, bind_apply, collector_of_some hc, idle, hg, hp, run, collector_of_some hc',
      raises, Bool.false_eq_true, if_true, if_false, pure_apply, throw_apply]

theorem collect_of_none {i : Int} (hc : s.memory.collector = none) :
    collect hooks i s = .error .collectorMissing s := by
  simp only [collect, bind_apply, collector_of_none hc]

/-- While a pass is running no other one starts. -/
theorem collect_of_collecting {c : Collector} {i : Int} (hc : s.memory.collector = some c)
    (collecting : c.collecting = true) : collect hooks i s = .error .reentrantCollection s := by
  simp only [collect, bind_apply, collector_of_some hc, collecting, if_true, throw_apply]

theorem collect_of_invalid {c : Collector} {i : Int} (hc : s.memory.collector = some c)
    (idle : c.collecting = false) (hg : Generation.ofInt? i = none) :
    collect hooks i s = .error (.invalidConfiguration (.invalidGeneration i)) s := by
  simp only [collect, bind_apply, collector_of_some hc, idle, Bool.false_eq_true, if_false, hg,
    throw_apply]

/-- A collection is refused without any change, or there is a generation to collect. -/
theorem collect_cases (hooks : Hooks) (i : Int) (s : Machine) :
    (∃ e, collect hooks i s = .error e s) ∨
      ∃ c g, s.memory.collector = some c ∧ c.collecting = false ∧ Generation.ofInt? i = some g := by
  cases hc : s.memory.collector with
  | none => exact .inl ⟨_, collect_of_none hc⟩
  | some c =>
    cases collecting : c.collecting with
    | true => exact .inl ⟨_, collect_of_collecting hc collecting⟩
    | false =>
      cases hg : Generation.ofInt? i with
      | none => exact .inl ⟨_, collect_of_invalid hc collecting hg⟩
      | some g => exact .inr ⟨c, g, rfl, collecting, rfl⟩

theorem collect_safe (H : hooks.Sound sc b n) (may : sc.may .collect) (i : Int) :
    Safe sc b n self (collect hooks i) := by
  intro L Q s A hn _
  rcases collect_cases hooks i s with ⟨e, refused⟩ | ⟨c, g, hc, idle, hg⟩
  · exact always_of_error refused A.here
  · obtain rfl : b = false := (A.collecting_eq hc).symm.trans idle
    obtain ⟨pass, hp, P⟩ := H.pass rfl may
    obtain ⟨outcome, s', run, leads, -⟩ := Pass.run_leads (g := g) P A hn hc
    obtain ⟨c', hc'⟩ := leads.exists_collector hc
    have collected := collect_apply hc idle hg hp run hc'
    split at collected
    · exact always_of_error collected leads
    · exact always_of_ok collected leads

/-! ## The collector -/

theorem clearGarbage_safe (H : hooks.Sound sc b n)
    (may : ∀ {deed}, deed ∈ [Deed.disown, .giveUp] → sc.may deed) :
    Safe sc b n self (clearGarbage hooks) := by
  -- the list is emptied first, so a finalizer that clears it again finds nothing
  have disown : Safe sc b n self (Act.modifyCollector ({ · with garbage := [] })) :=
    fun L Q s A _ _ => always_of_ok (modifyCollector_apply _ s) (A.disown (may (by simp)))
  exact still_collector.safe.bind fun c => disown.bind fun _ =>
    (Safe.forM (fun _ => release_safe H (may (by simp))) c.garbage).bind fun _ =>
      (still_pure _).safe

/-- A change of the settings is refused without any change, or made as a whole. -/
theorem configure_cases (f : Collector → Except Fault Collector) (s : Machine) :
    (∃ e, configure f s = .error e s) ∨
      ∃ c c', s.memory.collector = some c ∧ f c = .ok c' ∧
        configure f s = .ok () (s.mapCollector fun _ => c') := by
  cases hc : s.memory.collector with
  | none =>
    refine .inl ⟨.collectorMissing, ?_⟩
    simp only [configure, bind_apply, collector_of_none hc]
  | some c =>
    cases run : f c with
    | error e =>
      refine .inl ⟨e, ?_⟩
      simp only [configure, bind_apply, collector_of_some hc, run, ofExcept_error]
    | ok c' =>
      refine .inr ⟨c, c', rfl, run, ?_⟩
      simp only [configure, bind_apply, collector_of_some hc, run, ofExcept_ok,
        modifyCollector_apply]

theorem configure_safe (may : sc.may .configure) {f : Collector → Except Fault Collector}
    (retunes : ∀ c c', f c = .ok c' → c.Retuned sc c') : Safe sc b n self (configure f) := by
  intro L Q s A _ _
  rcases configure_cases f s with ⟨e, refused⟩ | ⟨c, c', hc, run, configured⟩
  · exact always_of_error refused A.here
  · have retuned := retunes c c' run
    have follows : Follows sc s (s.mapCollector fun _ => c') := by
      refine .of_collector rfl rfl (fun c₁ hc₁ => ?_) (fun steady c₁ hc₁ => ?_) fun _ _ => id
      all_goals obtain rfl : c = c₁ := Option.some.inj (hc.symm.trans hc₁)
      · exact retuned.cleared
      · exact retuned.policy steady
    have books : (s.mapCollector fun _ => c').memory.books? = s.memory.books? := by
      show Option.map _ (Option.map _ s.memory.collector) = Option.map _ s.memory.collector
      rw [hc, Option.map_some, Option.map_some, Option.map_some, Collector.books, Collector.books,
        retuned.stats, retuned.collections]
    refine always_of_ok configured (A.step (.configure may hc retuned.toReconfigured) A.freeing
      ?_ (follows.quiet rfl books))
    show Option.any _ (Option.map _ s.memory.collector) = Option.any _ s.memory.collector
    rw [hc]
    exact retuned.collecting

theorem setThresholds_safe (may : sc.may .configure) (counts : PerGeneration Nat) :
    Safe sc b n self (setThresholds counts) := by
  apply configure_safe may
  intro c c' run
  obtain ⟨t, ht, run⟩ := Heap.exists_of_bind run
  obtain ⟨thresholds, -, ht⟩ := Heap.exists_of_bind ht
  cases ht
  cases run
  exact ⟨⟨rfl, rfl, rfl, rfl, rfl, rfl, fun _ => .inl, .inl⟩, .refl _, fun _ => rfl⟩

theorem setEnabled_safe (may : sc.may .configure) (enabled : Bool) :
    Safe sc b n self (setEnabled enabled) := by
  apply configure_safe may
  intro c c' run
  cases run
  exact ⟨⟨rfl, rfl, rfl, rfl, rfl, rfl, fun _ => .inl, .inl⟩, .refl _, fun _ => rfl⟩

theorem setDebug_safe (may : sc.may .configure) {flags : DebugFlags}
    (saving : flags.has .saveAll = true → sc.saving) : Safe sc b n self (setDebug flags) := by
  apply configure_safe may
  intro c c' run
  cases run
  exact ⟨⟨rfl, rfl, rfl, rfl, rfl, rfl, fun _ => .inl, fun saves => .inr (saving saves)⟩, .refl _,
    fun _ => rfl⟩

theorem setPolicy_safe {policy : ResurrectionPolicy}
    (allowed : sc.allows (.call (.setPolicy policy))) : Safe sc b n self (setPolicy policy) := by
  apply configure_safe (sc.deeds allowed List.mem_cons_self)
  intro c c' run
  cases run
  exact ⟨⟨rfl, rfl, rfl, rfl, rfl, rfl, fun _ => .inl, .inl⟩, .refl _,
    fun steady => absurd allowed (steady policy)⟩

theorem clearCallbacks_safe (may : sc.may .configure) :
    Safe sc b n self (configure fun c => .ok { c with callbacks := [] }) := by
  apply configure_safe may
  intro c c' run
  cases run
  exact ⟨⟨rfl, rfl, rfl, rfl, rfl, rfl, fun cb hcb => absurd hcb List.not_mem_nil, .inl⟩,
    List.nil_sublist _, fun _ => rfl⟩

/-- An action that changes neither memory nor the journal. -/
theorem modify_safe {f : Machine → Machine}
    (aside : ∀ s, Aside s (f s)) : Safe sc b n self (modify f : Act Unit) := by
  intro L Q s A _ _
  exact always_of_ok (modify_apply f s) (A.aside (aside s))

/-- The machine with one more callback, numbered next. -/
def register (s : Machine) (c : Collector) (phase : CallbackPhase) (script : Script) : Machine :=
  { s.mapCollector fun _ =>
      { c with callbacks := c.callbacks ++ [{ index := s.registered, phase, script }] } with
    registered := s.registered + 1 }

theorem follows_register {c : Collector} (hc : s.memory.collector = some c) (phase : CallbackPhase)
    (script : Script) : Follows sc s (register s c phase script) := by
  have before := callbacks_of_collector hc
  have after : (register s c phase script).callbacks =
      s.callbacks ++ [{ index := s.registered, phase, script }] := by
    rw [before]
    show (Option.map _ s.memory.collector).elim _ _ = _
    rw [hc]
    rfl
  refine ⟨Nat.le_succ _, fun cb mem => ?_, fun N => ⟨?_, fun cb mem => ?_⟩, fun _ _ => id,
    fun _ => ?_⟩
  · rw [after, List.mem_append, List.mem_singleton] at mem
    rcases mem with mem | rfl
    · exact .inl mem
    · exact .inr (Nat.le_refl _)
  · rw [after, List.map_append, List.pairwise_append]
    refine ⟨N.ascending, List.pairwise_singleton _ _, fun i hi j hj => ?_⟩
    obtain ⟨cb, mem, rfl⟩ := List.mem_map.mp hi
    rw [List.mem_singleton.mp hj]
    exact N.registered cb mem
  · rw [after, List.mem_append, List.mem_singleton] at mem
    rcases mem with mem | rfl
    · exact Nat.lt_succ_of_lt (N.registered cb mem)
    · exact Nat.lt_succ_self _
  · show Option.map _ (Option.map _ s.memory.collector) = Option.map _ s.memory.collector
    rw [hc]
    rfl

theorem addCallback_of_some {c : Collector} (hc : s.memory.collector = some c)
    (phase : CallbackPhase) (script : Script) :
    addCallback phase script s = .ok s.registered (register s c phase script) := by
  simp only [addCallback, configure, bind_apply, get_apply, collector_of_some hc, ofExcept_ok,
    modifyCollector_apply, modify_apply, pure_apply]
  rfl

theorem addCallback_of_none (hc : s.memory.collector = none) (phase : CallbackPhase)
    (script : Script) : addCallback phase script s = .error .collectorMissing s := by
  simp only [addCallback, configure, bind_apply, get_apply, collector_of_none hc]

/-- A callback that is registered lies within the scope. -/
theorem addCallback_safe (may : sc.may .configure) {phase : CallbackPhase} {script : Script}
    (hook : sc.hooks script) : Safe sc b n self (addCallback phase script) := by
  intro L Q s A _ _
  cases hc : s.memory.collector with
  | none => exact always_of_error (addCallback_of_none hc phase script) A.here
  | some c =>
    have reconfigured : c.Reconfigured sc
        { c with callbacks := c.callbacks ++ [{ index := s.registered, phase, script }] } := by
      refine ⟨rfl, rfl, rfl, rfl, rfl, rfl, fun cb hcb => ?_, .inl⟩
      rcases List.mem_append.mp hcb with hcb | hcb
      · exact .inl hcb
      · rw [List.mem_singleton.mp hcb]
        exact .inr hook
    have same {α : Type} (view : Collector → α)
        (blind : view { c with
          callbacks := c.callbacks ++ [{ index := s.registered, phase, script }] } = view c) :
        (register s c phase script).memory.collector.map view = s.memory.collector.map view := by
      show Option.map _ (Option.map _ s.memory.collector) = Option.map _ s.memory.collector
      rw [hc, Option.map_some, Option.map_some, Option.map_some, blind]
    have configured := A.reach (.configure may hc reconfigured) A.freeing <| by
      show Option.any _ (Option.map _ s.memory.collector) = Option.any _ s.memory.collector
      rw [hc]
      rfl
    have registered : Reaches sc b L s L Q (register s c phase script) :=
      configured.trans (configured.there.reach (.aside rfl rfl rfl) configured.there.freeing rfl)
    exact always_of_ok (addCallback_of_some hc phase script)
      ⟨registered, ((follows_register hc phase script).quiet rfl (same _ rfl)).conduct⟩

theorem snapshot_safe (slot : Nat) : Safe sc b n self (snapshot slot) :=
  still_collector.safe.bind fun _ =>
    (modify_safe (by intro; exact ⟨rfl, rfl, rfl, rfl⟩)).bind fun _ => (still_pure _).safe

theorem still_snapshotAt (slot : Nat) : Still (snapshotAt slot) := fun _ => rfl

theorem advance_safe {α : Type} (slot : Nat) (take : Snapshot → Heap → α × Snapshot) :
    Safe sc b n self (advance slot take) :=
  (still_snapshotAt slot).safe.bind fun _ => still_heap.safe.bind fun _ =>
    (modify_safe (by intro; exact ⟨rfl, rfl, rfl, rfl⟩)).bind fun _ => (still_pure _).safe

theorem announce_safe (name : String) (x : ObjectId) : Safe sc b n self (announce name x) := by
  have record : Safe sc b n self (Act.record (.announced name x)) := fun L Q s A _ _ =>
    always_of_ok (record_apply _ s) (A.note rfl ⟨nofun, A.collecting, rfl, nofun, nofun⟩)
  exact record.bind fun _ => modify_safe (by intro; exact ⟨rfl, rfl, rfl, rfl⟩)

/-! ## Questions and calls -/

/-- A question changes nothing. -/
theorem still_ask (self : ObjectId) (q : Query) : Still (ask self q) := by
  cases q with
  | contains _ | find _ | roots | objectCount | freedCount =>
    exact still_heap.bind fun _ => still_pure _
  | report => exact still_memory.bind fun _ => still_pure _
  | get _ | strongCount _ | references _ =>
    exact still_heap.bind fun _ => (still_ofExcept _).bind fun _ => still_pure _
  | isEnabled | thresholds | counts | isTracked _ | generationOf _ | stats | totals | isCollecting
  | debug | policy | garbage =>
    exact still_collector.bind fun _ => still_pure _
  | tracked | referrers _ =>
    exact still_memory.bind fun _ => still_collector.bind fun _ => still_pure _
  | referents _ =>
    exact still_collector.bind fun _ => still_heap.bind fun _ =>
      (still_ofExcept _).bind fun _ => still_pure _

theorem call_safe (H : hooks.Sound sc b n) {c : Call} (allowed : sc.allows (.call c)) :
    Safe sc b n self (call hooks self c) := by
  have may {deed : Deed} (mem : deed ∈ c.deeds) : sc.may deed := sc.deeds allowed mem
  cases c with
  | allocate kind typeName => exact (allocate_safe H may kind typeName).answer _
  | allocateMany kind count => exact (allocateMany_safe H may kind 0 count).answer _
  | chain length close => exact (chain_safe H may length close).answer _
  | retain id => exact (retain_safe (may List.mem_cons_self)).answer _
  | release id => exact (release_safe H (may List.mem_cons_self)).answer _
  | addEdge source target => exact (addEdge_safe (may List.mem_cons_self)).answer _
  | removeEdge source target => exact (removeEdge_safe H (may List.mem_cons_self)).answer _
  | clearFinalizer id =>
    exact (setFinalizer_safe (may List.mem_cons_self) (fun _ e => by cases e) fun _ => rfl).answer _
  | collect generation => exact (collect_safe H (may List.mem_cons_self) generation).answer _
  | enable => exact (setEnabled_safe (may List.mem_cons_self) true).answer _
  | disable => exact (setEnabled_safe (may List.mem_cons_self) false).answer _
  | setThresholds counts => exact (setThresholds_safe (may List.mem_cons_self) counts).answer _
  | setDebug flags => exact (setDebug_safe (may List.mem_cons_self) (sc.flags allowed)).answer _
  | setPolicy policy => exact (setPolicy_safe allowed).answer _
  | clearGarbage => exact (clearGarbage_safe H may).answer _
  | clearCallbacks => exact (clearCallbacks_safe (may List.mem_cons_self)).answer _
  | snapshot slot => exact (snapshot_safe slot).answer _
  | snapshotNext slot => exact (advance_safe slot _).answer _
  | snapshotRemaining slot => exact (advance_safe slot _).answer _
  | snapshotSize slot => exact (still_snapshotAt slot).safe.answer _
  | throw message => exact (still_throw _).safe
  | announce name => exact (announce_safe name self).answer _

/-- Every operation within the scope is safe. -/
theorem perform_safe (H : hooks.Sound sc b n) {op : Op} (allowed : sc.allows op) :
    Safe sc b n self (perform hooks self op) := by
  cases op with
  | call c => exact call_safe H allowed
  | ask q => exact (still_ask self q).safe
  | raw r => exact absurd (sc.host allowed) Bool.false_ne_true
  | setFinalizer id script =>
    have may := sc.deeds allowed List.mem_cons_self
    refine (setFinalizer_safe may (fun script' e => ?_) fun fixed =>
      absurd allowed (fixed id script)).answer _
    cases e
    obtain ⟨hook, names⟩ := sc.finalizer allowed
    refine ⟨hook, ?_⟩
    cases id with
    | self => exact .inr rfl
    | id x => exact .inl (names x rfl)
  | addCallback phase script =>
    have may := sc.deeds allowed List.mem_cons_self
    exact (addCallback_safe may (sc.callback allowed)).answer _

/-- When a step of a script has been noted, the script goes on from there or stops. -/
theorem runScript_always {P : Machine → Prop} {step : Step Op} {rest : Script}
    {outcome : Except Fault Answer}
    (run : attempt (perform hooks self step.op) s = .ok outcome s')
    (stops : P (s'.log (.performed step.op s.memory outcome)))
    (goesOn : (runScript hooks self rest).Always (s'.log (.performed step.op s.memory outcome)) P) :
    (runScript hooks self (step :: rest)).Always s P := by
  cases outcome with
  | ok _ =>
    refine Always.of_eq ?_ goesOn
    simp only [runScript, bind_apply, memory_apply, run, record_apply]
  | error fault =>
    cases tolerant : step.tolerant with
    | true =>
      refine Always.of_eq ?_ goesOn
      simp only [runScript, bind_apply, memory_apply, run, record_apply, tolerant, if_true]
    | false =>
      have failed : runScript hooks self (step :: rest) s =
          .error fault (s'.log (.performed step.op s.memory (.error fault))) := by
        simp only [runScript, bind_apply, memory_apply, run, record_apply, tolerant,
          Bool.false_eq_true, if_false, throw_apply]
      exact always_of_error failed stops

/-- A step of a script takes steps, and it is noted where it has come from. -/
theorem performed_leads (H : hooks.Sound sc b n) {op : Op} (allowed : sc.allows op)
    (A : At sc b L Q s) (hn : s.memory.heap.unspent sc ≤ n)
    (spent : s.memory.heap.isSpent self = true) :
    ∃ outcome s', attempt (perform hooks self op) s = .ok outcome s' ∧
      Leads sc b L s L Q (s'.log (.performed op s.memory outcome)) := by
  -- a step that fails has done what it did before, in steps as well
  obtain ⟨outcome, s', run, leads⟩ :=
    attempt_of_always (perform_safe H allowed L Q s A hn spent)
  have scene : Scene sc b n self op L Q s := ⟨A, hn, spent, allowed, H.passes⟩
  refine ⟨outcome, s', run, leads.trans (leads.there.note rfl
    ⟨nofun, leads.there.collecting, rfl, nofun, fun {op before outcome} e => ?_⟩)⟩
  cases e
  exact ⟨sc, n, self, L, Q, s, s', scene, rfl, rfl, H.eq_within ▸ run⟩

/-- A script is safe if its steps are within the scope. -/
theorem runScript_safe (H : hooks.Sound sc b n) {script : Script}
    (allowed : ∀ step ∈ script, sc.allows step.op) :
    Safe sc b n self (runScript hooks self script) := by
  induction script with
  | nil => exact (still_pure ()).safe
  | cons step rest ih =>
    have ih := ih fun step' mem => allowed step' (List.mem_cons_of_mem step mem)
    intro L Q s A hn spent
    obtain ⟨outcome, s', run, performed⟩ :=
      performed_leads H (allowed step List.mem_cons_self) A hn spent
    have goesOn := ih L Q _ performed.there (Nat.le_trans performed.unspent_le hn)
      ((Steps.later performed.steps).isSpent spent)
    exact runScript_always run performed (goesOn.mono fun _ => performed.trans)

end Host

end Reclaim
