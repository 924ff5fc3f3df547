import Mathlib.Logic.Function.Basic
import Reclaim.Proofs.References

/-!
# The balance of counts and references

In the middle of a release or a pass there are references that are counted although neither the host
nor an object holds them: the temporary one of an object whose finalizer runs, those taken from a
dying object and not yet given back. A `Loose` assignment says how many of them each object has.
`Heap.Balanced` is the counting law with such references, together with what else holds of a heap at
every moment: references lead to live objects, atoms hold none, and an object without references is
marked as being freed.

Every edit of one object that moves references between the host, the object and the loose ones keeps
the balance (`Heap.Balanced.put`). Between operations nothing is loose and nothing is being freed,
and the balance is the counting law `Heap.Consistent`.
-/

set_option autoImplicit false

namespace Reclaim

/-- The number of references to each object that are counted and that nobody holds. -/
def Loose := ObjectId → Nat

namespace Loose

instance : CoeFun Loose fun _ => ObjectId → Nat := ⟨id⟩

/-- Nothing is loose. -/
def none : Loose := fun _ => 0

/-- One more loose reference to each of some objects. -/
def add (L : Loose) (xs : List ObjectId) : Loose := fun x => L x + xs.count x

/-- No loose reference to an object any more. -/
def clear (L : Loose) (x : ObjectId) : Loose := Function.update L x 0

@[simp] theorem none_apply (x : ObjectId) : none x = 0 := rfl

@[simp] theorem add_apply (L : Loose) (xs : List ObjectId) (x : ObjectId) :
    L.add xs x = L x + xs.count x := rfl

theorem clear_self (L : Loose) (x : ObjectId) : L.clear x x = 0 := Function.update_self x 0 L

theorem clear_of_ne (L : Loose) {x y : ObjectId} (ne : y ≠ x) : L.clear x y = L y :=
  Function.update_of_ne ne 0 L

@[ext] theorem ext {L L' : Loose} (same : ∀ x, L x = L' x) : L = L' := funext same

@[simp] theorem add_nil (L : Loose) : L.add [] = L := by
  ext x
  simp

theorem add_append (L : Loose) (xs ys : List ObjectId) : L.add (xs ++ ys) = (L.add xs).add ys := by
  ext x
  simp only [add_apply, List.count_append]
  omega

theorem add_cons (L : Loose) (x : ObjectId) (xs : List ObjectId) :
    L.add (x :: xs) = (L.add xs).add [x] := by
  ext y
  simp only [add_apply, List.count_cons, List.count_nil]
  omega

theorem clear_of_eq_zero {L : Loose} {x : ObjectId} (zero : L x = 0) : L.clear x = L := by
  ext y
  by_cases ne : y = x
  · rw [ne, clear_self, zero]
  · rw [clear_of_ne L ne]

end Loose

namespace Object

/-- The object without its age and the scratch fields of the analysis, which no count depends on. -/
def bare (o : Object) : Object := { o with generation := 0, color := .white, gcRefs := 0 }

theorem eq_of_bare_eq {o p : Object} (same : o.bare = p.bare) :
    o = { p with generation := o.generation, color := o.color, gcRefs := o.gcRefs } := by
  cases o
  cases p
  simp only [bare, Object.mk.injEq] at same ⊢
  simp [same]

/-- The object with one reference less; with the last one it is marked as being freed. -/
def lose (o : Object) : Object :=
  { o with strongCount := o.strongCount - 1, freeing := o.freeing || o.strongCount == 1 }

end Object

namespace Heap

variable {h h' : Heap} {L L' : Loose} {x y : ObjectId} {o o' : Object}

/-- Counts agree with references, of which some are loose. -/
structure Balanced (L : Loose) (h : Heap) : Prop where
  count : ∀ {x o}, h.get? x = some o → o.strongCount = o.rootCount + h.inEdges x + L x
  loose_live : ∀ {x}, h.get? x = none → L x = 0
  closed : ∀ {x o y}, h.get? x = some o → y ∈ o.references → ∃ p, h.get? y = some p
  atoms : ∀ {x o}, h.get? x = some o → o.kind = .atom → o.references = []
  idle : ∀ {x o}, h.get? x = some o → o.strongCount = 0 → o.freeing = true
  keyed : ∀ {x o}, h.get? x = some o → o.id = x ∧ 0 < x ∧ x < h.nextId
  nextId_pos : 0 < h.nextId

/-- The counting law between operations. -/
structure Consistent (h : Heap) : Prop where
  /-- The count is the number of references that the host and live objects hold. -/
  count : ∀ {x o}, h.get? x = some o → o.strongCount = o.rootCount + h.inEdges x
  positive : ∀ {x o}, h.get? x = some o → 0 < o.strongCount
  settled : ∀ {x o}, h.get? x = some o → o.freeing = false
  atoms : ∀ {x o}, h.get? x = some o → o.kind = .atom → o.references = []
  closed : ∀ {x o y}, h.get? x = some o → y ∈ o.references → ∃ p, h.get? y = some p

/-- Every object is stored under its own handle, which has been given out. -/
structure Keyed (h : Heap) : Prop where
  keyed : ∀ {x o}, h.get? x = some o → o.id = x ∧ 0 < x ∧ x < h.nextId
  nextId_pos : 0 < h.nextId

/-- No reference dangles, and every reference held by the host or by an object is counted. -/
structure Covered (h : Heap) : Prop where
  count : ∀ {x o}, h.get? x = some o → o.rootCount + h.inEdges x ≤ o.strongCount
  closed : ∀ {x o y}, h.get? x = some o → y ∈ o.references → ∃ p, h.get? y = some p

/-- Only objects of a set are marked as being freed. -/
def FreeingIn (Q : ObjectId → Prop) (h : Heap) : Prop :=
  ∀ x o, h.get? x = some o → o.freeing = true → Q x

theorem FreeingIn.put {Q Q' : ObjectId → Prop} (F : h.FreeingIn Q)
    (own : o'.freeing = true → Q' x) (others : ∀ y, y ≠ x → Q y → Q' y) :
    (h.put x o').FreeingIn Q' := by
  intro y p hy freeing
  rw [get?_put] at hy
  split at hy
  · next e =>
    subst e
    cases hy
    exact own freeing
  · next ne => exact others y (Ne.symm ne) (F y p hy freeing)

theorem Balanced.covered (B : h.Balanced L) : h.Covered where
  count hx := by
    have := B.count hx
    omega
  closed := B.closed

theorem Balanced.consistent (B : h.Balanced Loose.none) (idle : h.FreeingIn fun _ => False) :
    h.Consistent where
  count hx := by simpa using B.count hx
  positive {x o} hx := by
    by_contra zero
    exact idle x o hx (B.idle hx (by omega))
  settled {x o} hx := by
    cases hf : o.freeing with
    | false => rfl
    | true => exact (idle x o hx hf).elim
  atoms := B.atoms
  closed := B.closed

theorem Balanced.isKeyed (B : h.Balanced L) : h.Keyed := ⟨B.keyed, B.nextId_pos⟩

/-- Where the counting law holds, nothing is loose. -/
theorem Consistent.balanced (C : h.Consistent) (K : h.Keyed) : h.Balanced Loose.none where
  count := C.count
  loose_live _ := rfl
  closed := C.closed
  atoms := C.atoms
  idle hx zero := absurd zero (Nat.ne_of_gt (C.positive hx))
  keyed := K.keyed
  nextId_pos := K.nextId_pos

/-- Atoms hold no references, so what holds one is a container. -/
theorem Consistent.container_of_mem_refs (C : h.Consistent) (hy : y ∈ h.refs x) :
    ∃ o, h.get? x = some o ∧ o.kind = .container := by
  obtain ⟨o, ho, mem⟩ := isSome_of_mem_refs hy
  cases kind : o.kind with
  | container => exact ⟨o, ho, kind⟩
  | atom =>
    rw [C.atoms ho kind] at mem
    cases mem

/-- What lives is counted for a reference that the host or another object holds. -/
theorem Consistent.rooted_or_held (C : h.Consistent) (hx : h.get? x = some o) :
    h.Rooted x ∨ ∃ r, x ∈ h.refs r := by
  have count := C.count hx
  have positive := C.positive hx
  by_cases root : 0 < o.rootCount
  · exact .inl ⟨o, hx, root⟩
  · right
    by_contra none
    have := inEdges_eq_zero fun r hr => none ⟨r, hr⟩
    omega

theorem Balanced.fresh (B : h.Balanced L) : h.get? h.nextId = none := by
  cases hx : h.get? h.nextId with
  | none => rfl
  | some o => exact absurd (B.keyed hx).2.2 (Nat.lt_irrefl _)

theorem Balanced.exists_of_loose (B : h.Balanced L) (loose : 0 < L x) :
    ∃ o, h.get? x = some o := by
  cases hx : h.get? x with
  | none =>
    have := B.loose_live hx
    omega
  | some o => exact ⟨o, rfl⟩

theorem Balanced.inEdges_of_none (B : h.Balanced L) (hx : h.get? x = none) : h.inEdges x = 0 := by
  apply inEdges_eq_zero
  intro r hr
  obtain ⟨o, ho, mem⟩ := isSome_of_mem_refs hr
  obtain ⟨p, hp⟩ := B.closed ho mem
  rw [hx] at hp
  cases hp

/-- Without references an object is out of reach. -/
theorem Balanced.unreferenced (B : h.Balanced L) (hx : h.get? x = some o)
    (zero : o.strongCount = 0) : o.rootCount = 0 ∧ h.inEdges x = 0 ∧ L x = 0 := by
  have := B.count hx
  omega

theorem not_rooted (hx : h.get? x = some o) (zero : o.rootCount = 0) : ¬ h.Rooted x := by
  rintro ⟨p, hp, pos⟩
  rw [hx, Option.some.injEq] at hp
  subst hp
  omega

/-- The balance does not depend on ages and scratch fields. -/
theorem Balanced.congr (B : h.Balanced L) (nextId : h'.nextId = h.nextId)
    (same : ∀ x, (h'.get? x).map Object.bare = (h.get? x).map Object.bare) : h'.Balanced L := by
  -- each clause is read back from the other heap, where the object differs in scratch fields only
  have back {x : ObjectId} {o : Object} (hx : h'.get? x = some o) : ∃ p, h.get? x = some p ∧
      o = { p with generation := o.generation, color := o.color, gcRefs := o.gcRefs } := by
    have := same x
    rw [hx, Option.map_some, eq_comm, Option.map_eq_some_iff] at this
    obtain ⟨p, hp, e⟩ := this
    exact ⟨p, hp, Object.eq_of_bare_eq e.symm⟩
  have forth {x : ObjectId} {p : Object} (hx : h.get? x = some p) : ∃ o, h'.get? x = some o := by
    have := same x
    rw [hx, Option.map_some, Option.map_eq_some_iff] at this
    obtain ⟨o, ho, -⟩ := this
    exact ⟨o, ho⟩
  have refs (x : ObjectId) : h'.refs x = h.refs x := by
    cases hx : h'.get? x with
    | none =>
      have := same x
      rw [hx, Option.map_none, eq_comm, Option.map_eq_none_iff] at this
      rw [refs_of_none hx, refs_of_none this]
    | some o =>
      obtain ⟨p, hp, e⟩ := back hx
      rw [refs_of_get? hx, refs_of_get? hp, e]
  constructor
  case count =>
    intro x o hx
    obtain ⟨p, hp, e⟩ := back hx
    -- no reference list has changed, so neither have the incoming references
    have law := B.count hp
    rw [e, inEdges_congr refs]
    exact law
  case loose_live =>
    intro x hx
    have := same x
    rw [hx, Option.map_none, eq_comm, Option.map_eq_none_iff] at this
    exact B.loose_live this
  case closed =>
    intro x o y hx hy
    obtain ⟨p, hp, e⟩ := back hx
    rw [e] at hy
    obtain ⟨q, hq⟩ := B.closed hp hy
    exact forth hq
  case atoms =>
    intro x o hx kind
    obtain ⟨p, hp, e⟩ := back hx
    have law := B.atoms hp
    rw [e] at kind ⊢
    exact law kind
  case idle =>
    intro x o hx zero
    obtain ⟨p, hp, e⟩ := back hx
    have law := B.idle hp
    rw [e] at zero ⊢
    exact law zero
  case keyed =>
    intro x o hx
    obtain ⟨p, hp, e⟩ := back hx
    have law := B.keyed hp
    rw [e, nextId]
    exact law
  case nextId_pos =>
    rw [nextId]
    exact B.nextId_pos

/-- An edit of one object keeps the balance if it moves references between the host, the object and
the loose ones: at the object itself the count changes with the references to it, at all others the
references given up by the object become loose. -/
theorem Balanced.put (B : h.Balanced L) (hx : h.get? x = some o) (id : o'.id = o.id)
    (own : o'.strongCount + (o.rootCount + o.references.count x + L x) =
      o.strongCount + (o'.rootCount + o'.references.count x + L' x))
    (off : ∀ y, y ≠ x → o'.references.count y + L' y = o.references.count y + L y)
    (closed : ∀ y ∈ o'.references, ∃ p, h.get? y = some p)
    (atoms : o'.kind = .atom → o'.references = [])
    (idle : o'.strongCount = 0 → o'.freeing = true) : (h.put x o').Balanced L' := by
  -- the only references that change are those of `x`
  have change (y : ObjectId) :
      (h.put x o').inEdges y + o.references.count y = h.inEdges y + o'.references.count y := by
    have := @inEdges_change h (h.put x o') x
      (fun r hr => by rw [refs_put, if_neg (Ne.symm hr)]) y
    rwa [refs_put, if_pos rfl, refs_of_get? hx] at this
  have live {y : ObjectId} {p : Object} (hy : h.get? y = some p) :
      ∃ q, (h.put x o').get? y = some q := by
    rw [get?_put]
    split
    · exact ⟨o', rfl⟩
    · exact ⟨p, hy⟩
  have dead {y : ObjectId} (hy : (h.put x o').get? y = Option.none) :
      y ≠ x ∧ h.get? y = Option.none := by
    rw [get?_put] at hy
    split at hy
    · cases hy
    · next ne => exact ⟨Ne.symm ne, hy⟩
  constructor
  case count =>
    intro y p hy
    rw [get?_put] at hy
    have := change y
    split at hy
    · next e =>
      subst e
      cases hy
      have := B.count hx
      omega
    · next ne =>
      have := B.count hy
      -- another object: what `x` no longer refers to is loose on it
      have := off y (Ne.symm ne)
      omega
  case loose_live =>
    intro y hy
    obtain ⟨ne, hy⟩ := dead hy
    have := off y ne
    have := B.loose_live hy
    -- a dead handle was not referred to, so nothing can have become loose on it
    have unreferenced : o.references.count y = 0 := List.count_eq_zero.mpr fun mem => by
      obtain ⟨p, hp⟩ := B.closed hx mem
      rw [hy] at hp
      cases hp
    omega
  case closed =>
    intro y p z hy hz
    rw [get?_put] at hy
    split at hy
    · cases hy
      obtain ⟨q, hq⟩ := closed z hz
      exact live hq
    · obtain ⟨q, hq⟩ := B.closed hy hz
      exact live hq
  case atoms =>
    intro y p hy
    rw [get?_put] at hy
    split at hy
    · cases hy
      exact atoms
    · exact B.atoms hy
  case idle =>
    intro y p hy
    rw [get?_put] at hy
    split at hy
    · cases hy
      exact idle
    · exact B.idle hy
  case keyed =>
    intro y p hy
    rw [get?_put] at hy
    split at hy
    · next e =>
      cases hy
      rw [id, ← e]
      exact B.keyed hx
    · exact B.keyed hy
  case nextId_pos => exact B.nextId_pos

/-- An edit that leaves the references of the object alone. -/
theorem Balanced.put_of_references (B : h.Balanced L) (hx : h.get? x = some o) (id : o'.id = o.id)
    (kind : o'.kind = o.kind) (references : o'.references = o.references)
    (own : o'.strongCount + (o.rootCount + L x) = o.strongCount + (o'.rootCount + L' x))
    (off : ∀ y, y ≠ x → L' y = L y) (idle : o'.strongCount = 0 → o'.freeing = true) :
    (h.put x o').Balanced L' := by
  refine B.put hx id ?_ ?_ ?_ ?_ idle
  · rw [references]
    omega
  · intro y ne
    rw [references, off y ne]
  · rw [references]
    exact fun y => B.closed hx
  · rw [kind, references]
    exact B.atoms hx

/-! ## Edits of a dying object -/

theorem Balanced.lose (B : h.Balanced (L.add [x])) (hx : h.get? x = some o) :
    (h.put x o.lose).Balanced L := by
  have count := B.count hx
  have one : [x].count x = 1 := List.count_singleton_self
  refine B.put_of_references hx rfl rfl rfl ?_ ?_ ?_
  · simp only [Object.lose, Loose.add_apply] at count ⊢
    omega
  · intro y ne
    simp [ne.symm]
  · intro zero
    simp only [Object.lose, Loose.add_apply, Bool.or_eq_true, beq_iff_eq] at zero count ⊢
    omega

/-- The temporary reference of an object whose finalizer is about to run. -/
theorem Balanced.hold (B : h.Balanced L) (hx : h.get? x = some o) :
    (h.put x { o.incRef with freeing := false }).Balanced (L.add [x]) := by
  refine B.put_of_references hx rfl rfl rfl ?_ ?_ ?_
  · simp only [Object.incRef, Loose.add_apply, List.count_singleton_self]
    omega
  · intro y ne
    simp [ne.symm]
  · intro zero
    simp [Object.incRef] at zero

theorem Balanced.spare (B : h.Balanced L) (hx : h.get? x = some o) (held : 0 < o.strongCount) :
    (h.put x { o with freeing := false }).Balanced L :=
  B.put_of_references hx rfl rfl rfl rfl (fun _ _ => rfl) fun zero => absurd zero (by
    show o.strongCount ≠ 0
    omega)

theorem Balanced.markFinalized (B : h.Balanced L) (hx : h.get? x = some o) :
    (h.put x o.markFinalized).Balanced L :=
  B.put_of_references hx rfl rfl rfl rfl (fun _ _ => rfl) (B.idle hx :)

/-- The references taken from an object become loose. -/
theorem Balanced.clearReferences (B : h.Balanced L) (hx : h.get? x = some o) :
    (h.put x o.clearReferences).Balanced (L.add o.references) := by
  refine B.put hx rfl ?_ ?_ (fun y hy => absurd hy List.not_mem_nil) (fun _ => rfl)
    (B.idle hx :)
  · simp only [Object.clearReferences, Loose.add_apply, List.count_nil]
    omega
  · intro y _
    simp only [Object.clearReferences, Loose.add_apply, List.count_nil]
    omega

/-- An object that nobody holds and that holds nothing can be taken out, whatever is loose on it. -/
theorem Balanced.erase (B : h.Balanced L) (references : h.refs x = [])
    (unreferenced : h.inEdges x = 0) : (h.erase x).Balanced (L.clear x) := by
  have back {y : ObjectId} {p : Object} (hy : (h.erase x).get? y = some p) :
      y ≠ x ∧ h.get? y = some p := by
    rw [get?_erase] at hy
    split at hy
    · cases hy
    · next ne => exact ⟨Ne.symm ne, hy⟩
  -- the object held no references, so those of all others are all there were
  have refs (r : ObjectId) : (h.erase x).refs r = h.refs r := by
    rw [refs_erase]
    split
    · next e => rw [← e, references]
    · rfl
  constructor
  case count =>
    intro y p hy
    obtain ⟨ne, hy⟩ := back hy
    rw [inEdges_congr refs, Loose.clear_of_ne L ne]
    exact B.count hy
  case loose_live =>
    intro y hy
    by_cases e : y = x
    · rw [e, Loose.clear_self]
    · rw [Loose.clear_of_ne L e]
      apply B.loose_live
      rwa [get?_erase, if_neg (Ne.symm e)] at hy
  case closed =>
    intro y p z hy hz
    obtain ⟨-, hy⟩ := back hy
    -- nobody refers to the object that is gone
    have held : z ∈ h.refs y := by rwa [refs_of_get? hy]
    have ne : x ≠ z := by
      rintro rfl
      exact not_mem_refs_of_inEdges_eq_zero unreferenced y held
    rw [get?_erase, if_neg ne]
    exact B.closed hy hz
  case atoms => exact fun hy => B.atoms (back hy).2
  case idle => exact fun hy => B.idle (back hy).2
  case keyed => exact fun hy => B.keyed (back hy).2
  case nextId_pos => exact B.nextId_pos

/-! ## Operations of the host -/

theorem Balanced.retain (B : h.Balanced L) (run : h.retain x = .ok h') : h'.Balanced L := by
  obtain ⟨o, hx, rfl⟩ := exists_of_retain run
  refine B.put_of_references hx rfl rfl rfl ?_ (fun _ _ => rfl) ?_
  · simp only [Object.incRef, Object.addRoot]
    omega
  · intro zero
    simp [Object.incRef] at zero

theorem Balanced.giveUpRoot (B : h.Balanced L) (run : h.giveUpRoot x = .ok h') :
    h'.Balanced (L.add [x]) := by
  obtain ⟨o, n, hx, hn, rfl⟩ := exists_of_giveUpRoot run
  refine B.put_of_references hx rfl rfl rfl ?_ ?_ (B.idle hx :)
  · simp only [Loose.add_apply, List.count_singleton_self]
    omega
  · intro y ne
    simp [ne.symm]

theorem Balanced.cut (B : h.Balanced L) (run : h.cut x y = .ok h') : h'.Balanced (L.add [y]) := by
  obtain ⟨o, hx, mem, rfl⟩ := exists_of_cut run
  -- one reference to `y` moves from the list to the loose ones
  have erased (z : ObjectId) :
      (o.references.erase y).count z + [y].count z = o.references.count z := by
    have positive : 0 < o.references.count y := List.count_pos_iff.mpr mem
    by_cases e : y = z
    · subst e
      rw [List.count_erase_self, List.count_singleton_self]
      omega
    · rw [List.count_erase_of_ne (by simpa using Ne.symm e), List.count_singleton,
        if_neg (by simpa using e), Nat.add_zero]
  refine B.put hx rfl ?_ ?_ ?_ ?_ (B.idle hx :)
  · have := erased x
    simp only [Loose.add_apply]
    omega
  · intro z _
    have := erased z
    simp only [Loose.add_apply]
    omega
  · intro z hz
    exact B.closed hx (List.mem_of_mem_erase hz)
  · intro kind
    rw [B.atoms hx kind] at mem
    exact absurd mem List.not_mem_nil

theorem Balanced.addEdge (B : h.Balanced L) (run : h.addEdge x y = .ok h') : h'.Balanced L := by
  obtain ⟨o, p, hx, hy, kind, rfl⟩ := exists_of_addEdge run
  -- the target is counted first, under a loose reference that the source then takes over
  have counted : (h.put y p.incRef).Balanced (L.add [y]) := by
    refine B.put_of_references hy rfl rfl rfl ?_ ?_ ?_
    · simp only [Object.incRef, Loose.add_apply, List.count_singleton_self]
      omega
    · intro z ne
      simp [ne.symm]
    · intro zero
      simp [Object.incRef] at zero
  have swap : (h.put x (o.appendReference y)).modify y Object.incRef =
      (h.put y p.incRef).put x (((if y = x then p.incRef else o)).appendReference y) := by
    refine ext_get? (fun z => ?_) rfl rfl
    simp only [get?_put, get?_modify]
    -- the edge may be one from the object to itself
    by_cases hzx : x = z <;> by_cases hzy : y = z
    · subst hzx
      subst hzy
      rw [hx, Option.some.injEq] at hy
      subst hy
      simp [Object.appendReference, Object.incRef]
    · subst hzx
      simp [hzy]
    · subst hzy
      simp [hzx, hy]
    · simp [hzx, hzy]
  rw [swap]
  have hsource : (h.put y p.incRef).get? x = some (if y = x then p.incRef else o) := by
    rw [get?_put]
    split
    · rfl
    · exact hx
  have sourceKind : (if y = x then p.incRef else o).kind = .container := by
    split
    · next e =>
      subst e
      rw [hx, Option.some.injEq] at hy
      subst hy
      exact kind
    · exact kind
  refine counted.put hsource rfl ?_ ?_ ?_ ?_
    (counted.idle hsource :)
  · simp only [Object.appendReference, List.count_append, Loose.add_apply]
    omega
  · intro z _
    simp only [Object.appendReference, List.count_append, Loose.add_apply]
    omega
  · intro z hz
    rcases List.mem_append.mp hz with hz | hz
    · exact counted.closed hsource hz
    · rw [List.mem_singleton.mp hz, get?_put, if_pos rfl]
      exact ⟨_, rfl⟩
  · intro atom
    rw [Object.appendReference, sourceKind] at atom
    cases atom

theorem Balanced.setFinalizer {finalizer : Option Script} (B : h.Balanced L)
    (run : h.setFinalizer x finalizer = .ok h') : h'.Balanced L := by
  obtain ⟨o, hx, rfl⟩ := exists_of_setFinalizer run
  exact B.put_of_references hx rfl rfl rfl rfl (fun _ _ => rfl) (B.idle hx :)

/-- A new object has the one reference that its allocator holds. -/
theorem Balanced.insert (B : h.Balanced L) (id : o.id = h.nextId) (strong : o.strongCount = 1)
    (root : o.rootCount = 1) (references : o.references = []) :
    Balanced L { h.put h.nextId o with nextId := h.nextId + 1 } := by
  have fresh := B.fresh
  have get (y : ObjectId) : ({ h.put h.nextId o with nextId := h.nextId + 1 } : Heap).get? y =
      if h.nextId = y then some o else h.get? y := get?_put h h.nextId o y
  have refs (r : ObjectId) :
      ({ h.put h.nextId o with nextId := h.nextId + 1 } : Heap).refs r = h.refs r := by
    show (h.put h.nextId o).refs r = h.refs r
    rw [refs_put]
    split
    · next e => rw [references, ← e, refs_of_none fresh]
    · rfl
  have live {y : ObjectId} {p : Object} (hy : h.get? y = some p) :
      ∃ q, ({ h.put h.nextId o with nextId := h.nextId + 1 } : Heap).get? y = some q := by
    rw [get]
    split
    · exact ⟨o, rfl⟩
    · exact ⟨p, hy⟩
  constructor
  case count =>
    intro y p hy
    rw [get] at hy
    rw [inEdges_congr refs]
    split at hy
    · next e =>
      cases hy
      -- nobody referred to the new handle, as it was not live
      rw [strong, root, ← e, B.inEdges_of_none fresh, B.loose_live fresh]
    · exact B.count hy
  case loose_live =>
    intro y hy
    rw [get] at hy
    split at hy
    · cases hy
    · exact B.loose_live hy
  case closed =>
    intro y p z hy hz
    rw [get] at hy
    split at hy
    · cases hy
      rw [references] at hz
      exact absurd hz List.not_mem_nil
    · obtain ⟨q, hq⟩ := B.closed hy hz
      exact live hq
  case atoms =>
    intro y p hy
    rw [get] at hy
    split at hy
    · cases hy
      exact fun _ => references
    · exact B.atoms hy
  case idle =>
    intro y p hy zero
    rw [get] at hy
    split at hy
    · cases hy
      omega
    · exact B.idle hy zero
  case keyed =>
    intro y p hy
    rw [get] at hy
    show p.id = y ∧ 0 < y ∧ y < h.nextId + 1
    split at hy
    · next e =>
      cases hy
      exact ⟨id.trans e, e ▸ B.nextId_pos, e ▸ Nat.lt_succ_self _⟩
    · obtain ⟨key, pos, lt⟩ := B.keyed hy
      exact ⟨key, pos, Nat.lt_succ_of_lt lt⟩
  case nextId_pos => exact Nat.succ_pos _

end Heap

end Reclaim
