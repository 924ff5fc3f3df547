import Reclaim.Proofs.Steps

/-!
# What every step keeps

Memory is sound if its heap is balanced, its tracker files live containers by their age, and the
hooks that are installed lie within the scope of the run (`Memory.Sound`). Every step keeps that
(`Machine.Step.sound`), so it holds at every moment of a run (`Machine.Steps.sound`). The number of
objects that may still be finalized never grows (`Machine.Steps.unspent_le`) and falls with every
finalizer that is entered (`Heap.unspent_lt`).
-/

set_option autoImplicit false

namespace Reclaim

variable {sc : Scope}

/-- The hooks that are installed, and what passes may keep, lie within the scope of a run. -/
structure Memory.Within (sc : Scope) (m : Memory) : Prop where
  pending : ∀ {x o script}, m.heap.get? x = some o → o.pendingFinalizer? = some script →
    x ∈ sc.names ∧ sc.hooks script
  callbacks : sc.passes → ∀ {c cb}, m.collector = some c → cb ∈ c.callbacks → sc.hooks cb.script
  saving : sc.passes → sc.may .collect → ∀ {c}, m.collector = some c →
    c.debug.has .saveAll = true → sc.saving

/-- What holds of memory at every moment of a run. -/
structure Memory.Sound (sc : Scope) (L : Loose) (m : Memory) : Prop where
  balanced : m.heap.Balanced L
  files : sc.passes → ∀ {c}, m.collector = some c → c.tracker.Files m.heap
  within : m.Within sc

namespace Heap

variable {h h' h'' : Heap} {L L' : Loose} {x y : ObjectId} {o p : Object}

theorem Later.refl (h : Heap) : h.Later h where
  nextId := Nat.le_refl _
  old {_ p} _ hp := ⟨p, hp, rfl, Int.le_refl _, id⟩

theorem Later.trans (one : h.Later h') (two : h'.Later h'') : h.Later h'' where
  nextId := Nat.le_trans one.nextId two.nextId
  old {x p} old hp := by
    obtain ⟨q, hq, kind, age, finalized⟩ := two.old (Nat.lt_of_lt_of_le old one.nextId) hp
    obtain ⟨o, ho, kind', age', finalized'⟩ := one.old old hq
    exact ⟨o, ho, kind.trans kind', Int.le_trans age' age, fun e => finalized (finalized' e)⟩

/-- What is dead stays dead. -/
theorem Later.dead (later : h.Later h') (old : x < h.nextId) (dead : h.get? x = none) :
    h'.get? x = none := by
  cases hx : h'.get? x with
  | none => rfl
  | some p =>
    obtain ⟨o, ho, -⟩ := later.old old hx
    rw [dead] at ho
    cases ho

theorem isSpent_iff : h.isSpent x = true ↔
    x < h.nextId ∧ ∀ o, h.get? x = some o → o.finalized = true := by
  unfold isSpent
  rw [Bool.and_eq_true, decide_eq_true_eq]
  cases h.get? x <;> simp

theorem isSpent_markFinalized (old : x < h.nextId) :
    (h.put x o.markFinalized).isSpent x = true := by
  refine isSpent_iff.mpr ⟨old, fun p hp => ?_⟩
  rw [get?_put, if_pos rfl, Option.some.injEq] at hp
  rw [← hp]
  rfl

theorem Later.isSpent (later : h.Later h') (spent : h.isSpent x = true) : h'.isSpent x = true := by
  rw [isSpent_iff] at spent ⊢
  refine ⟨Nat.lt_of_lt_of_le spent.1 later.nextId, fun p hp => ?_⟩
  obtain ⟨o, ho, -, -, finalized⟩ := later.old spent.1 hp
  exact finalized (spent.2 o ho)

theorem not_pending_of_isSpent (spent : h.isSpent x = true) (hx : h.get? x = some o) :
    o.pendingFinalizer? = none := by
  unfold Object.pendingFinalizer?
  rw [if_pos ((isSpent_iff.mp spent).2 o hx)]

theorem not_isSpent_of_pending {script : Script} (hx : h.get? x = some o)
    (pending : o.pendingFinalizer? = some script) : h.isSpent x = false := by
  by_contra spent
  rw [Bool.not_eq_false] at spent
  rw [not_pending_of_isSpent spent hx] at pending
  cases pending

/-- The number of objects that may still be finalized. -/
def unspent (sc : Scope) (h : Heap) : Nat := (sc.names.filter (h.isSpent · = false)).card

theorem Later.unspent_le (later : h.Later h') : h'.unspent sc ≤ h.unspent sc := by
  apply Finset.card_le_card
  intro x hx
  rw [Finset.mem_filter] at hx ⊢
  refine ⟨hx.1, ?_⟩
  by_contra spent
  rw [Bool.not_eq_false] at spent
  rw [later.isSpent spent] at hx
  cases hx.2

/-- An object that has been finalized meanwhile leaves one less to finalize. -/
theorem unspent_lt (later : h.Later h') (name : x ∈ sc.names) (before : h.isSpent x = false)
    (after : h'.isSpent x = true) : h'.unspent sc < h.unspent sc := by
  refine Finset.card_lt_card ⟨?_, ?_⟩
  · intro y hy
    rw [Finset.mem_filter] at hy ⊢
    refine ⟨hy.1, ?_⟩
    by_contra spent
    rw [Bool.not_eq_false] at spent
    rw [later.isSpent spent] at hy
    cases hy.2
  · intro sub
    have mem := sub (Finset.mem_filter.mpr ⟨name, before⟩)
    rw [Finset.mem_filter, after] at mem
    cases mem.2

/-! ## Edits -/

/-- The analysis changes no view of an object that leaves its scratch fields out. -/
theorem Unmarked.map_view {α : Type} {view : Object → α} (unmarked : h.Unmarked h')
    (blind : ∀ o, view o.unmarked = view o) (y : ObjectId) :
    (h'.get? y).map view = (h.get? y).map view := by
  -- the view factors through what the analysis does not write
  have factor (g : Option Object) : (g.map Object.unmarked).map view = g.map view := by
    rw [Option.map_map]
    exact congrArg (Option.map · g) (funext blind)
  rw [← factor (h'.get? y), unmarked.objects y, factor]

/-- What no edit changes is the same afterwards. -/
theorem Edit.fixed (edit : Edit sc (L, h) (L', h')) (y : ObjectId) :
    (h'.get? y).map Object.fixed = (h.get? y).map Object.fixed := by
  cases edit with
  | mark unmarked => exact unmarked.map_view (fun _ => rfl) y
  | lose hx => exact map_get?_put hx (by rfl) y
  | spare hx _ => exact map_get?_put hx (by rfl) y
  | hold hx => exact map_get?_put hx (by rfl) y
  | unlink hx _ _ => exact map_get?_put hx (by rfl) y
  | save _ run =>
    obtain ⟨o, hx, rfl⟩ := exists_of_retain run
    exact map_get?_put hx (by rfl) y
  | retain _ run =>
    obtain ⟨o, hx, rfl⟩ := exists_of_retain run
    exact map_get?_put hx (by rfl) y
  | giveUpRoot _ run =>
    obtain ⟨o, n, hx, -, rfl⟩ := exists_of_giveUpRoot run
    exact map_get?_put hx (by rfl) y
  | addEdge _ run =>
    obtain ⟨o, p, hx, hy, -, rfl⟩ := exists_of_addEdge run
    exact (map_get?_modify (by intro; rfl) _ y).trans (map_get?_put hx (by rfl) y)
  | cut _ run =>
    obtain ⟨o, hx, -, rfl⟩ := exists_of_cut run
    exact map_get?_put hx (by rfl) y
  | setFinalizer _ run _ =>
    obtain ⟨o, hx, rfl⟩ := exists_of_setFinalizer run
    exact map_get?_put hx (by rfl) y

/-- Edits give out no handle and free none. -/
theorem Edit.numbers (edit : Edit sc (L, h) (L', h')) :
    h'.nextId = h.nextId ∧ h'.freed = h.freed := by
  cases edit with
  | mark unmarked => exact ⟨unmarked.nextId, unmarked.freed⟩
  | lose _ | spare _ _ | hold _ | unlink _ _ _ => exact ⟨rfl, rfl⟩
  | save _ run | retain _ run =>
    obtain ⟨o, -, rfl⟩ := exists_of_retain run
    exact ⟨rfl, rfl⟩
  | giveUpRoot _ run =>
    obtain ⟨o, n, -, -, rfl⟩ := exists_of_giveUpRoot run
    exact ⟨rfl, rfl⟩
  | addEdge _ run =>
    obtain ⟨o, p, -, -, -, rfl⟩ := exists_of_addEdge run
    exact ⟨rfl, rfl⟩
  | cut _ run =>
    obtain ⟨o, -, -, rfl⟩ := exists_of_cut run
    exact ⟨rfl, rfl⟩
  | setFinalizer _ run _ =>
    obtain ⟨o, -, rfl⟩ := exists_of_setFinalizer run
    exact ⟨rfl, rfl⟩

theorem Edit.nextId (edit : Edit sc (L, h) (L', h')) : h'.nextId = h.nextId := edit.numbers.1

theorem Edit.balanced (edit : Edit sc (L, h) (L', h')) (B : h.Balanced L) : h'.Balanced L' := by
  cases edit with
  | mark unmarked => exact B.congr unmarked.nextId (unmarked.map_view fun _ => rfl)
  | lose hx => exact B.lose hx
  | spare hx held => exact B.spare hx held
  | hold hx => exact B.hold hx
  | unlink hx _ _ => exact B.clearReferences hx
  | save _ run => exact B.retain run
  | retain _ run => exact B.retain run
  | giveUpRoot _ run => exact B.giveUpRoot run
  | addEdge _ run => exact B.addEdge run
  | cut _ run => exact B.cut run
  | setFinalizer _ run _ => exact B.setFinalizer run

/-- The edits made while a pass is at work are edits of the whole run. -/
theorem Edit.lift {a b : Loose × Heap} (edit : Edit sc.calm a b) : Edit sc a b := by
  cases edit with
  | mark unmarked => exact .mark unmarked
  | lose hx => exact .lose hx
  | spare hx held => exact .spare hx held
  | hold hx => exact .hold hx
  | unlink hx unreachable swept => exact .unlink hx unreachable swept
  | save saving run => exact .save saving run
  | retain may run => exact .retain may run
  | giveUpRoot may run => exact .giveUpRoot may run
  | addEdge may run => exact .addEdge may run
  | cut may run => exact .cut may run
  | setFinalizer may run allowed => exact .setFinalizer may run allowed

theorem filing_of_fixed (fixed : (h'.get? y).map Object.fixed = (h.get? y).map Object.fixed) :
    h'.filing y = h.filing y := by
  have factor (g : Option Object) :
      (g.map Object.fixed).map (fun v => (v.1, v.2.1)) = g.map fun o => (o.kind, o.generation) := by
    rw [Option.map_map]
    rfl
  rw [filing, filing, ← factor (h'.get? y), fixed, factor]

theorem Edit.exists_old (edit : Edit sc (L, h) (L', h')) (hp : h'.get? y = some p) :
    ∃ o, h.get? y = some o ∧ o.fixed = p.fixed := by
  have fixed := edit.fixed y
  rwa [hp, Option.map_some, eq_comm, Option.map_eq_some_iff] at fixed

theorem Edit.later (edit : Edit sc (L, h) (L', h')) : h.Later h' where
  nextId := Nat.le_of_eq edit.nextId.symm
  old {x p} _ hp := by
    obtain ⟨o, ho, same⟩ := edit.exists_old hp
    have kind : o.kind = p.kind := congrArg (·.1) same
    have age : o.generation = p.generation := congrArg (·.2.1) same
    have finalized : o.finalized = p.finalized := congrArg (·.2.2) same
    exact ⟨o, ho, kind.symm, Int.le_of_eq age, fun e => finalized ▸ e⟩

/-- A finalizer that is pending after an edit was pending before or has just been installed. -/
theorem Edit.pending {script : Script} (edit : Edit sc (L, h) (L', h')) (hy : h'.get? y = some p)
    (pending : p.pendingFinalizer? = some script) :
    (∃ o, h.get? y = some o ∧ o.pendingFinalizer? = some script) ∨
      (y ∈ sc.names ∧ sc.hooks script) := by
  have keep (same : (h'.get? y).map Object.pendingFinalizer? =
      (h.get? y).map Object.pendingFinalizer?) :
      (∃ o, h.get? y = some o ∧ o.pendingFinalizer? = some script) ∨
        (y ∈ sc.names ∧ sc.hooks script) := by
    rw [hy, Option.map_some, eq_comm, Option.map_eq_some_iff] at same
    obtain ⟨o, ho, e⟩ := same
    exact .inl ⟨o, ho, e.trans pending⟩
  cases edit with
  | mark unmarked => exact keep (unmarked.map_view (fun _ => rfl) y)
  | lose hx => exact keep (map_get?_put hx (by rfl) y)
  | spare hx _ => exact keep (map_get?_put hx (by rfl) y)
  | hold hx => exact keep (map_get?_put hx (by rfl) y)
  | unlink hx _ _ => exact keep (map_get?_put hx (by rfl) y)
  | save _ run | retain _ run =>
    obtain ⟨o, hx, rfl⟩ := exists_of_retain run
    exact keep (map_get?_put hx (by rfl) y)
  | giveUpRoot _ run =>
    obtain ⟨o, n, hx, -, rfl⟩ := exists_of_giveUpRoot run
    exact keep (map_get?_put hx (by rfl) y)
  | addEdge _ run =>
    obtain ⟨o, p, hx, -, -, rfl⟩ := exists_of_addEdge run
    exact keep ((map_get?_modify (by intro; rfl) _ y).trans (map_get?_put hx (by rfl) y))
  | cut _ run =>
    obtain ⟨o, hx, -, rfl⟩ := exists_of_cut run
    exact keep (map_get?_put hx (by rfl) y)
  | setFinalizer _ run allowed =>
    obtain ⟨o, hx, rfl⟩ := exists_of_setFinalizer run
    rw [get?_put] at hy
    split at hy
    · next e =>
      subst e
      cases hy
      -- a finalized object has none pending, so the new one was allowed here by name
      have unfinalized : ¬ o.finalized = true := fun e => by
        simp [Object.pendingFinalizer?, e] at pending
      obtain ⟨hook, name | spent⟩ := allowed script (by
        simpa [Object.pendingFinalizer?, unfinalized] using pending)
      · exact .inr ⟨name, hook⟩
      · exact absurd ((isSpent_iff.mp spent).2 o hx) unfinalized
    · exact .inl ⟨p, hy, pending⟩

theorem Later.of_put (hx : h.get? x = some o) (kind : p.kind = o.kind)
    (age : p.generation = o.generation) (finalized : o.finalized = true → p.finalized = true) :
    h.Later (h.put x p) where
  nextId := Nat.le_refl _
  old {y q} _ hq := by
    rw [get?_put] at hq
    split at hq
    · next e =>
      subst e
      cases hq
      exact ⟨o, hx, kind, Int.le_of_eq age.symm, finalized⟩
    · exact ⟨q, hq, rfl, Int.le_refl _, id⟩

theorem later_erase (h : Heap) (x : ObjectId) : h.Later (h.erase x) where
  nextId := Nat.le_refl _
  old {y q} _ hq := by
    rw [get?_erase] at hq
    split at hq
    · cases hq
    · exact ⟨q, hq, rfl, Int.le_refl _, id⟩

theorem get?_allocate (h : Heap) (kind : Kind) (typeName : String) (y : ObjectId) :
    (h.allocate kind typeName).2.get? y =
      if h.nextId = y then some (Tracker.newObject h kind typeName) else h.get? y :=
  get?_put h h.nextId (Tracker.newObject h kind typeName) y

/-- Every handle that was given out is that of a live object, or of one that was freed. -/
def Accounts (h : Heap) : Prop := h.freed + h.live.card + 1 = h.nextId

theorem Accounts.congr (accounts : h.Accounts) (nextId : h'.nextId = h.nextId)
    (freed : h'.freed = h.freed) (same : ∀ y, (h'.get? y).isSome = (h.get? y).isSome) :
    h'.Accounts := by
  unfold Accounts at *
  rw [live_congr same, nextId, freed, accounts]

/-- As many objects have been freed where as many handles have been given out and the same objects
live. -/
theorem Accounts.freed_eq (accounts : h.Accounts) (accounts' : h'.Accounts)
    (nextId : h'.nextId = h.nextId) (live : h'.live = h.live) : h'.freed = h.freed := by
  unfold Accounts at accounts accounts'
  rw [live, nextId] at accounts'
  omega

theorem Accounts.erase (accounts : h.Accounts) (hx : h.get? x = some o) :
    (h.erase x).Accounts := by
  have mem : x ∈ h.live := mem_live.mpr ⟨o, hx⟩
  have live : (h.erase x).live = h.live.erase x := by
    ext y
    rw [Finset.mem_erase, mem_live, mem_live, get?_erase]
    split
    · next e => simp [e]
    · next ne => simp [Ne.symm ne]
  have card := Finset.card_erase_add_one mem
  have freed : (h.erase x).freed = h.freed + 1 := rfl
  have nextId : (h.erase x).nextId = h.nextId := rfl
  unfold Accounts at *
  rw [live, freed, nextId]
  omega

theorem Accounts.allocate (accounts : h.Accounts) (fresh : h.get? h.nextId = none) (kind : Kind)
    (typeName : String) : (h.allocate kind typeName).2.Accounts := by
  have live : (h.allocate kind typeName).2.live = insert h.nextId h.live := by
    ext y
    rw [Finset.mem_insert, mem_live, mem_live, get?_allocate]
    split
    · next e => simp [e]
    · next ne => simp [Ne.symm ne]
  have new : h.nextId ∉ h.live := by
    rw [mem_live, fresh]
    rintro ⟨o, e⟩
    cases e
  have card := Finset.card_insert_of_notMem new
  have freed : (h.allocate kind typeName).2.freed = h.freed := rfl
  have nextId : (h.allocate kind typeName).2.nextId = h.nextId + 1 := rfl
  unfold Accounts at *
  rw [live, freed, nextId]
  omega

theorem later_allocate (h : Heap) (kind : Kind) (typeName : String) :
    h.Later (h.allocate kind typeName).2 where
  nextId := Nat.le_succ _
  old {y q} old hq := by
    rw [get?_allocate, if_neg (Nat.ne_of_gt old)] at hq
    exact ⟨q, hq, rfl, Int.le_refl _, id⟩

end Heap

/-! ## Steps -/

theorem Collector.Reconfigured.lift {c c' : Collector} (r : c.Reconfigured sc.calm c') :
    c.Reconfigured sc c' where
  buckets := r.buckets
  counts := r.counts
  collections := r.collections
  collecting := r.collecting
  stats := r.stats
  garbage := r.garbage
  callbacks := r.callbacks
  saving := r.saving

namespace Memory

variable {m m' : Memory} {L : Loose} {x : ObjectId} {o : Object} {c : Collector}

theorem exists_of_destroy (hx : m.heap.get? x = some o) (run : m.destroy x = .ok m') :
    m' = { heap := m.heap.erase x,
           collector := m.collector.map fun c =>
             { c with tracker := c.tracker.deallocated o } } := by
  unfold destroy at run
  rw [hx] at run
  cases run
  rfl

theorem destroy_of_get? (hx : m.heap.get? x = some o) :
    m.destroy x = .ok { heap := m.heap.erase x,
                        collector := m.collector.map fun c =>
                          { c with tracker := c.tracker.deallocated o } } := by
  unfold destroy
  rw [hx]

theorem get?_book (m : Memory) (c : Collector) (g : Generation) (saves : Bool) (r : CycleReport)
    (y : ObjectId) : (m.book c g saves r).heap.get? y =
      (m.heap.get? y).map fun o =>
        if y ∈ r.survivors then { o with generation := g.next.val } else o :=
  Tracker.get?_promoteAll g.next r.survivors c.tracker m.heap y

/-- The books change no view of an object that leaves its age out. -/
theorem map_get?_book {α : Type} {view : Object → α}
    (blind : ∀ o age, view { o with generation := age } = view o) (m : Memory) (c : Collector)
    (g : Generation) (saves : Bool) (r : CycleReport) (y : ObjectId) :
    ((m.book c g saves r).heap.get? y).map view = (m.heap.get? y).map view := by
  rw [get?_book, Option.map_map]
  refine congrArg (Option.map · _) (funext fun o => ?_)
  show view (if _ then _ else _) = view o
  split
  · exact blind o _
  · rfl

/-- Survivors that are not older than their new generation grow older. -/
theorem later_book (m : Memory) (c : Collector) (g : Generation) (saves : Bool) (r : CycleReport)
    (young : ∀ x ∈ r.survivors, ∃ o, m.heap.get? x = some o ∧ o.generation ≤ (g.next.val : Int)) :
    m.heap.Later (m.book c g saves r).heap where
  nextId := Nat.le_refl _
  old {y q} _ hq := by
    rw [get?_book, Option.map_eq_some_iff] at hq
    obtain ⟨o, ho, rfl⟩ := hq
    split
    · next survives =>
      obtain ⟨p, hp, age⟩ := young y survives
      rw [ho, Option.some.injEq] at hp
      subst hp
      exact ⟨_, ho, rfl, age, id⟩
    · exact ⟨o, ho, rfl, Int.le_refl _, id⟩

theorem collector_book (m : Memory) (c : Collector) (g : Generation) (saves : Bool)
    (r : CycleReport) (hc : m.collector = some c) : ∃ c', (m.book c g saves r).collector = some c' ∧
      (∀ i, c'.tracker.bucket i =
        (Tracker.promoteAll g.next c.tracker m.heap.objects r.survivors).1.bucket i) ∧
      c'.callbacks = c.callbacks ∧ c'.debug = c.debug ∧ c'.collecting = c.collecting ∧
      c'.garbage = c.garbage ++ if saves then r.collected else [] := by
  unfold book
  rw [hc, Option.map_some]
  cases saves with
  | false => exact ⟨_, rfl, fun _ => rfl, rfl, rfl, rfl, (List.append_nil _).symm⟩
  | true => exact ⟨_, rfl, fun _ => rfl, rfl, rfl, rfl, rfl⟩

/-- Every live container is filed by the collector, if there is one. -/
def FilesAll (m : Memory) : Prop := ∀ {c}, m.collector = some c → c.tracker.FilesAll m.heap

/-- The books do not matter while a pass is at work. -/
theorem Sound.calm (S : m.Sound sc L) : m.Sound sc.calm L where
  balanced := S.balanced
  files := False.elim
  within := ⟨S.within.pending, False.elim, False.elim⟩

theorem Within.of_put (W : m.Within sc) {p : Object} (hx : m.heap.get? x = some o)
    (pending : ∀ script, p.pendingFinalizer? = some script → o.pendingFinalizer? = some script) :
    ({ m with heap := m.heap.put x p } : Memory).Within sc where
  pending {y q script} hy hq := by
    rw [Heap.get?_put] at hy
    split at hy
    · next e =>
      subst e
      cases hy
      exact W.pending hx (pending script hq)
    · exact W.pending hy hq
  callbacks := W.callbacks
  saving := W.saving

/-- A collector whose callbacks and flags are what they were stays within the scope. -/
theorem Within.of_collector (W : m.Within sc) {f : Collector → Collector}
    (collector : m'.collector = m.collector.map f) (callbacks : ∀ c, (f c).callbacks = c.callbacks)
    (debug : ∀ c, (f c).debug = c.debug)
    (pending : ∀ {x o script}, m'.heap.get? x = some o → o.pendingFinalizer? = some script →
      x ∈ sc.names ∧ sc.hooks script) : m'.Within sc where
  pending := pending
  callbacks passes {c cb} hc hcb := by
    rw [collector] at hc
    obtain ⟨c', hc', rfl⟩ := Option.map_eq_some_iff.mp hc
    rw [callbacks] at hcb
    exact W.callbacks passes hc' hcb
  saving passes may {c} hc flag := by
    rw [collector] at hc
    obtain ⟨c', hc', rfl⟩ := Option.map_eq_some_iff.mp hc
    rw [debug] at flag
    exact W.saving passes may hc' flag

end Memory

namespace Machine

open Relation

variable {s s' : Machine} {L L' : Loose} {x : ObjectId} {o : Object}

theorem Step.later (step : Step sc (L, s) (L', s')) : s.memory.heap.Later s'.memory.heap := by
  cases step with
  | aside memory _ _ => rw [memory]; exact .refl _
  | note _ | collecting _ | configure _ _ _ | disown _ => exact .refl _
  | edit edit => exact edit.later
  | finalize hx _ => exact .of_put hx rfl rfl fun _ => rfl
  | destroy hx _ _ _ run =>
    rw [Memory.exists_of_destroy hx run]
    exact Heap.later_erase _ _
  | book g saves r _ _ _ survivors =>
    refine Memory.later_book _ _ g saves r fun x hx => ?_
    obtain ⟨o, ho, -, age⟩ := survivors x hx
    exact ⟨o, ho, age⟩
  | allocate kind typeName _ =>
    rw [Memory.allocate_eq]
    exact Heap.later_allocate _ kind typeName

/-- Where no pass comes to its end, nothing grows older. -/
theorem Step.age {p : Object} (step : Step sc (L, s) (L', s')) (calm : ¬ sc.passes)
    (old : x < s.memory.heap.nextId) (hp : s'.memory.heap.get? x = some p) :
    ∃ o, s.memory.heap.get? x = some o ∧ p.generation = o.generation := by
  cases step with
  | aside memory _ _ => exact ⟨p, memory ▸ hp, rfl⟩
  | note _ | collecting _ | configure _ _ _ | disown _ => exact ⟨p, hp, rfl⟩
  | edit edit =>
    obtain ⟨o, ho, same⟩ := edit.exists_old hp
    exact ⟨o, ho, congrArg (·.2.1) same.symm⟩
  | finalize hx _ =>
    rw [log_memory, withHeap_heap, Heap.get?_put] at hp
    split at hp
    · next e =>
      subst e
      cases hp
      exact ⟨_, hx, rfl⟩
    · exact ⟨p, hp, rfl⟩
  | destroy hx _ _ _ run =>
    rw [Memory.exists_of_destroy hx run, withMemory_memory, Heap.get?_erase] at hp
    split at hp
    · cases hp
    · exact ⟨p, hp, rfl⟩
  | book _ _ _ passes _ _ _ => exact absurd passes calm
  | allocate _ _ _ =>
    rw [Memory.allocate_eq, withMemory_memory, Heap.get?_allocate,
      if_neg (Nat.ne_of_gt old)] at hp
    exact ⟨p, hp, rfl⟩

/-- No step cuts a run short. -/
theorem Step.starved (step : Step sc (L, s) (L', s')) : s'.starved = s.starved := by
  cases step with
  | aside _ _ starved => exact starved
  | _ => rfl

theorem Step.collector (step : Step sc (L, s) (L', s')) :
    s'.memory.collector.isSome = s.memory.collector.isSome := by
  cases step with
  | aside memory _ _ => rw [memory]
  | note _ | edit _ | finalize _ _ => rfl
  | collecting _ | configure _ _ _ | disown _ => exact Option.isSome_map
  | destroy hx _ _ _ run =>
    rw [Memory.exists_of_destroy hx run]
    exact Option.isSome_map
  | book _ _ _ _ _ _ _ => exact Option.isSome_map
  | allocate _ _ _ =>
    rw [Memory.allocate_eq]
    exact Option.isSome_map

theorem Step.balanced (step : Step sc (L, s) (L', s')) (B : s.memory.heap.Balanced L) :
    s'.memory.heap.Balanced L' := by
  cases step with
  | aside memory _ _ => rw [memory]; exact B
  | note _ | collecting _ | configure _ _ _ | disown _ => exact B
  | edit edit => exact edit.balanced B
  | finalize hx _ => exact B.markFinalized hx
  | destroy hx references _ unreferenced run =>
    rw [Memory.exists_of_destroy hx run]
    exact B.erase ((Heap.refs_of_get? hx).trans references) unreferenced
  | book g saves r _ _ _ _ =>
    exact B.congr rfl (Memory.map_get?_book (fun _ _ => rfl) _ _ g saves r)
  | allocate kind typeName _ =>
    rw [Memory.allocate_eq]
    exact B.insert rfl rfl rfl rfl

/-- Every handle that was given out stays live until it is freed. -/
theorem Step.accounts (step : Step sc (L, s) (L', s')) (B : s.memory.heap.Balanced L)
    (accounts : s.memory.heap.Accounts) : s'.memory.heap.Accounts := by
  cases step with
  | aside memory _ _ => rw [memory]; exact accounts
  | note _ | collecting _ | configure _ _ _ | disown _ => exact accounts
  | edit edit =>
    apply accounts.congr edit.nextId edit.numbers.2
    intro y
    have fixed := congrArg Option.isSome (edit.fixed y)
    rwa [Option.isSome_map, Option.isSome_map] at fixed
  | finalize hx _ =>
    refine accounts.congr rfl rfl ?_
    intro y
    rw [log_memory, withHeap_heap, Heap.get?_put]
    split
    · next e => rw [← e, hx]; rfl
    · rfl
  | destroy hx _ _ _ run =>
    rw [Memory.exists_of_destroy hx run]
    exact accounts.erase hx
  | book g saves r _ _ _ _ =>
    refine accounts.congr rfl rfl ?_
    intro y
    rw [withMemory_memory, Memory.get?_book, Option.isSome_map]
  | allocate kind typeName _ =>
    rw [Memory.allocate_eq]
    exact accounts.allocate B.fresh kind typeName

theorem Step.files (step : Step sc (L, s) (L', s')) (B : s.memory.heap.Balanced L)
    (F : ∀ {c}, s.memory.collector = some c → c.tracker.Files s.memory.heap) :
    ∀ {c}, s'.memory.collector = some c → c.tracker.Files s'.memory.heap := by
  intro c hc
  cases step with
  | aside memory _ _ =>
    rw [memory] at hc ⊢
    exact F hc
  | note _ => exact F hc
  | collecting _ | disown _ =>
    obtain ⟨c', hc', rfl⟩ := Option.map_eq_some_iff.mp hc
    exact (F hc' :)
  | configure _ hc' reconfigured =>
    obtain ⟨c', -, rfl⟩ := Option.map_eq_some_iff.mp hc
    exact (F hc').of_buckets reconfigured.buckets
  | edit edit => exact (F hc).congr fun y => Heap.filing_of_fixed (edit.fixed y)
  | finalize hx _ => exact (F hc).congr fun y => Heap.map_get?_put hx (by rfl) y
  | destroy hx _ _ _ run =>
    rw [Memory.exists_of_destroy hx run] at hc ⊢
    obtain ⟨c', hc', rfl⟩ := Option.map_eq_some_iff.mp hc
    exact (F hc').deallocated hx (B.keyed hx).1
  | book g saves r _ _ hc' containers =>
    obtain ⟨c', e, buckets, -⟩ := Memory.collector_book _ _ g saves r hc'
    obtain rfl : c' = c := Option.some.inj (e.symm.trans hc)
    have survivors (y : ObjectId) (hy : y ∈ r.survivors) :
        ∃ o, s.memory.heap.get? y = some o ∧ o.id = y ∧ o.kind = .container := by
      obtain ⟨o, ho, kind, -⟩ := containers y hy
      exact ⟨o, ho, (B.keyed ho).1, kind⟩
    -- the books of the new collector are those of the promoted tracker
    have files := (F hc').promoteAll survivors g.next
    intro i y hy
    rw [buckets] at hy
    exact files i y hy
  | allocate kind typeName _ =>
    rw [Memory.allocate_eq] at hc ⊢
    obtain ⟨c', hc', rfl⟩ := Option.map_eq_some_iff.mp hc
    exact (F hc').allocated B.fresh kind typeName

/-- A collector that files every container goes on doing so. -/
theorem Step.filesAll (step : Step sc (L, s) (L', s')) (B : s.memory.heap.Balanced L)
    (F : s.memory.FilesAll) : s'.memory.FilesAll := by
  intro c hc
  cases step with
  | aside memory _ _ =>
    rw [memory] at hc ⊢
    exact F hc
  | note _ => exact F hc
  | collecting _ | disown _ =>
    obtain ⟨c', hc', rfl⟩ := Option.map_eq_some_iff.mp hc
    exact (F hc' :)
  | configure _ hc' reconfigured =>
    obtain ⟨c', -, rfl⟩ := Option.map_eq_some_iff.mp hc
    exact (F hc').of_buckets reconfigured.buckets
  | edit edit => exact (F hc).congr fun y => Heap.filing_of_fixed (edit.fixed y)
  | finalize hx _ => exact (F hc).congr fun y => Heap.map_get?_put hx (by rfl) y
  | destroy hx _ _ _ run =>
    rw [Memory.exists_of_destroy hx run] at hc ⊢
    obtain ⟨c', hc', rfl⟩ := Option.map_eq_some_iff.mp hc
    exact (F hc').deallocated (B.keyed hx).1
  | book g saves r _ _ hc' _ =>
    obtain ⟨c', e, buckets, -⟩ := Memory.collector_book _ _ g saves r hc'
    obtain rfl : c' = c := Option.some.inj (e.symm.trans hc)
    have files := (F hc').promoteAll r.survivors (fun hy => (B.keyed hy).1) g.next
    intro y n hy
    obtain ⟨i, age, filed⟩ := files y n hy
    exact ⟨i, age, by rw [buckets]; exact filed⟩
  | allocate kind typeName _ =>
    rw [Memory.allocate_eq] at hc ⊢
    obtain ⟨c', hc', rfl⟩ := Option.map_eq_some_iff.mp hc
    exact (F hc').allocated kind typeName

theorem Step.within (step : Step sc (L, s) (L', s')) (W : s.memory.Within sc) :
    s'.memory.Within sc := by
  cases step with
  | aside memory _ _ => rw [memory]; exact W
  | note _ => exact W
  | collecting _ | disown _ => exact W.of_collector rfl (fun _ => rfl) (fun _ => rfl) W.pending
  | configure _ hc' reconfigured =>
    constructor
    · exact W.pending
    · intro passes c cb hc hcb
      obtain ⟨c', -, rfl⟩ := Option.map_eq_some_iff.mp hc
      rcases reconfigured.callbacks cb hcb with old | hook
      · exact W.callbacks passes hc' old
      · exact hook
    · intro passes may c hc flag
      obtain ⟨c', -, rfl⟩ := Option.map_eq_some_iff.mp hc
      rcases reconfigured.saving flag with old | saving
      · exact W.saving passes may hc' old
      · exact saving
  | edit edit =>
    -- a pending finalizer is an old one, or one that an allowed operation has installed
    refine ⟨fun hy pending => ?_, W.callbacks, W.saving⟩
    rcases edit.pending hy pending with ⟨o, ho, old⟩ | new
    · exact W.pending ho old
    · exact new
  | finalize hx _ =>
    -- an object that is marked as finalized has no finalizer pending, whichever it had
    apply W.of_put hx
    intro script pending
    simp [Object.pendingFinalizer?, Object.markFinalized] at pending
  | destroy hx _ _ _ run =>
    rw [Memory.exists_of_destroy hx run]
    refine W.of_collector rfl (fun _ => rfl) (fun _ => rfl) fun {y p script} hy => ?_
    rw [Machine.withMemory_memory, Heap.get?_erase] at hy
    split at hy
    · cases hy
    · exact W.pending hy
  | book g saves r _ _ hc' _ =>
    obtain ⟨c', e, -, callbacks, debug, -⟩ := Memory.collector_book _ _ g saves r hc'
    constructor
    · intro y p script hy pending
      rw [Machine.withMemory_memory, Memory.get?_book, Option.map_eq_some_iff] at hy
      obtain ⟨o, ho, rfl⟩ := hy
      apply W.pending ho
      rw [← pending]
      split <;> rfl
    · intro passes c cb hc
      obtain rfl : c' = c := Option.some.inj (e.symm.trans hc)
      rw [callbacks]
      exact W.callbacks passes hc'
    · intro passes may c hc
      obtain rfl : c' = c := Option.some.inj (e.symm.trans hc)
      rw [debug]
      exact W.saving passes may hc'
  | allocate kind typeName _ =>
    rw [Memory.allocate_eq]
    refine W.of_collector rfl (fun _ => rfl) (fun _ => rfl) fun {y p script} hy pending => ?_
    rw [Machine.withMemory_memory, Heap.get?_allocate] at hy
    split at hy
    · cases hy
      cases pending
    · exact W.pending hy pending

/-- Every step keeps memory sound. -/
theorem Step.sound (step : Step sc (L, s) (L', s')) (S : s.memory.Sound sc L) :
    s'.memory.Sound sc L' where
  balanced := step.balanced S.balanced
  files passes := step.files S.balanced (S.files passes)
  within := step.within S.within

/-! ## Runs -/

theorem Steps.sound {a b : Loose × Machine} (steps : Steps sc a b)
    (S : a.2.memory.Sound sc a.1) : b.2.memory.Sound sc b.1 := by
  induction steps with
  | refl => exact S
  | tail _ step ih => exact step.sound ih

theorem Steps.later {a b : Loose × Machine} (steps : Steps sc a b) :
    a.2.memory.heap.Later b.2.memory.heap := by
  induction steps with
  | refl => exact .refl _
  | tail _ step ih => exact ih.trans step.later

theorem Steps.age {a b : Loose × Machine} {p : Object} (steps : Steps sc a b) (calm : ¬ sc.passes)
    (old : x < a.2.memory.heap.nextId) (hp : b.2.memory.heap.get? x = some p) :
    ∃ o, a.2.memory.heap.get? x = some o ∧ p.generation = o.generation := by
  induction steps generalizing p with
  | refl => exact ⟨p, hp, rfl⟩
  | tail steps step ih =>
    obtain ⟨q, hq, age⟩ := step.age calm (Nat.lt_of_lt_of_le old (Steps.later steps).nextId) hp
    obtain ⟨o, ho, age'⟩ := ih hq
    exact ⟨o, ho, age.trans age'⟩

theorem Steps.unspent_le {a b : Loose × Machine} (steps : Steps sc a b) :
    b.2.memory.heap.unspent sc ≤ a.2.memory.heap.unspent sc :=
  steps.later.unspent_le

theorem Steps.accounts {a b : Loose × Machine} (steps : Steps sc a b)
    (S : a.2.memory.Sound sc a.1) (accounts : a.2.memory.heap.Accounts) :
    b.2.memory.heap.Accounts := by
  induction steps with
  | refl => exact accounts
  | tail steps step ih => exact step.accounts (Steps.sound steps S).balanced ih

theorem Steps.starved {a b : Loose × Machine} (steps : Steps sc a b) :
    b.2.starved = a.2.starved := by
  induction steps with
  | refl => rfl
  | tail _ step ih => exact step.starved.trans ih

theorem Steps.collector {a b : Loose × Machine} (steps : Steps sc a b) :
    b.2.memory.collector.isSome = a.2.memory.collector.isSome := by
  induction steps with
  | refl => rfl
  | tail _ step ih => exact step.collector.trans ih

theorem Steps.filesAll {a b : Loose × Machine} (steps : Steps sc a b)
    (S : a.2.memory.Sound sc a.1) (F : a.2.memory.FilesAll) : b.2.memory.FilesAll := by
  induction steps with
  | refl => exact F
  | tail steps step ih => exact step.filesAll (Steps.sound steps S).balanced ih

/-! ## Calm runs -/

/-- What happens while a pass is at work happens in the course of the run. -/
theorem Step.lift {a b : Loose × Machine} (step : Step sc.calm a b) : Step sc a b := by
  cases step with
  | aside memory journal starved => exact .aside memory journal starved
  | note note => exact .note note
  | edit edit => exact .edit edit.lift
  | finalize hx pending => exact .finalize hx pending
  | destroy hx references root unreferenced run =>
    exact .destroy hx references root unreferenced run
  | collecting value => exact .collecting value
  | book _ _ _ passes _ _ _ => exact passes.elim
  | allocate kind typeName may => exact .allocate kind typeName may
  | configure may hc reconfigured => exact .configure may hc reconfigured.lift
  | disown may => exact .disown may

theorem Steps.lift {a b : Loose × Machine} (steps : Steps sc.calm a b) : Steps sc a b :=
  ReflTransGen.mono (fun _ _ => Step.lift) _ _ steps

end Machine

end Reclaim
