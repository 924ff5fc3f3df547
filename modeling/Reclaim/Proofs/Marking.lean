import Reclaim.Proofs.Steps

/-!
# What the analysis finds

The analysis writes into each member how many references to it no member holds
(`Analysis.externalCounts_rewrites`) and blackens the members that are held from outside: those with
such a reference, and those that they lead to among the members (`Analysis.mark_black_iff`). The
invariant of the marking is the usual one of three colours: gray members are those on the stack, and
black ones refer to no white member. `Analysis.partition_eq` then divides the members by that.
-/

set_option autoImplicit false

namespace Reclaim

namespace Heap

variable {h h' h'' : Heap} {f g : ObjectId → Object → Object} {x : ObjectId} {o : Object}

/-- Every object of a heap is rewritten by itself. -/
structure Rewrites (f : ObjectId → Object → Object) (h h' : Heap) : Prop where
  nextId : h'.nextId = h.nextId
  freed : h'.freed = h.freed
  objects : ∀ x, h'.get? x = (h.get? x).map (f x)

theorem Rewrites.refl (h : Heap) : Rewrites (fun _ o => o) h h :=
  ⟨rfl, rfl, fun _ => Option.map_id'.symm⟩

theorem Rewrites.trans (one : Rewrites f h h') (two : Rewrites g h' h'') :
    Rewrites (fun x o => g x (f x o)) h h'' where
  nextId := two.nextId.trans one.nextId
  freed := two.freed.trans one.freed
  objects x := by
    rw [two.objects, one.objects, Option.map_map]
    rfl

theorem Rewrites.congr (R : Rewrites f h h')
    (same : ∀ x o, h.get? x = some o → f x o = g x o) : Rewrites g h h' where
  nextId := R.nextId
  freed := R.freed
  objects x := by
    rw [R.objects]
    exact Option.map_congr fun o ho => same x o ho

theorem rewrites_modify (h : Heap) (x : ObjectId) (m : Object → Object) :
    Rewrites (fun y o => if x = y then m o else o) h (h.modify x m) where
  nextId := rfl
  freed := rfl
  objects y := by
    rw [get?_modify]
    split
    · rfl
    · exact Option.map_id'.symm

theorem rewrites_foldl_modify {f : Object → Object} (idempotent : ∀ o, f (f o) = f o) (h : Heap)
    (xs : List ObjectId) : Rewrites (fun x o => if x ∈ xs then f o else o) h
      (xs.foldl (fun h x => h.modify x f) h) := by
  induction xs generalizing h with
  | nil => exact (Rewrites.refl h).congr fun x o _ => by simp
  | cons y xs ih =>
    apply ((rewrites_modify h y f).trans (ih _)).congr
    intro x o _
    by_cases e : y = x
    · subst e
      by_cases mem : y ∈ xs <;> simp [mem, idempotent]
    · by_cases mem : x ∈ xs <;> simp [e, Ne.symm e, mem]

theorem Rewrites.get? (R : Rewrites f h h') (hx : h.get? x = some o) :
    h'.get? x = some (f x o) := by
  rw [R.objects, hx, Option.map_some]

theorem Rewrites.refs (R : Rewrites f h h')
    (keeps : ∀ x o, (f x o).references = o.references) (x : ObjectId) : h'.refs x = h.refs x := by
  unfold Heap.refs
  rw [R.objects]
  cases h.get? x with
  | none => rfl
  | some o => exact keeps x o

theorem inEdgesFrom_congr (same : ∀ r, h'.refs r = h.refs r) (members : List ObjectId)
    (x : ObjectId) : h'.inEdgesFrom members x = h.inEdgesFrom members x := by
  unfold inEdgesFrom
  simp only [same]

theorem Rewrites.unmarked (R : Rewrites f h h') (blind : ∀ x o, (f x o).unmarked = o.unmarked) :
    h.Unmarked h' where
  nextId := R.nextId
  freed := R.freed
  objects x := by
    rw [R.objects, Option.map_map]
    exact congrArg (Option.map · _) (funext (blind x))

end Heap

namespace Analysis

variable {h h' : Heap} {members : List ObjectId} {x y : ObjectId} {o : Object}

theorem contains_index (members : List ObjectId) (x : ObjectId) :
    (index members).contains x = true ↔ x ∈ members := by
  simp [index]

/-! ## External counts -/

theorem discount_rewrites (h : Heap) (members refs : List ObjectId) :
    h.Rewrites (fun x o => if x ∈ members then { o with gcRefs := o.gcRefs - refs.count x } else o)
      (refs.foldl (discount (index members)) h) := by
  induction refs generalizing h with
  | nil => exact (Heap.Rewrites.refl h).congr fun x o _ => by simp
  | cons y refs ih =>
    -- a reference counts if it leads to a member
    by_cases hy : y ∈ members
    · have one : discount (index members) h y =
          h.modify y fun o => { o with gcRefs := o.gcRefs - 1 } :=
        if_pos ((contains_index members y).mpr hy)
      rw [List.foldl_cons, one]
      apply ((Heap.rewrites_modify h y _).trans (ih _)).congr
      intro x o _
      by_cases e : y = x
      · subst e
        simp only [hy, if_true, List.count_cons_self]
        congr 1
        omega
      · simp [e]
    · have none : discount (index members) h y = h :=
        if_neg (mt (contains_index members y).mp hy)
      rw [List.foldl_cons, none]
      apply (ih h).congr
      intro x o _
      split
      · next hx =>
        have e : y ≠ x := fun e => hy (e ▸ hx)
        simp [e]
      · rfl

theorem discountReferences_rewrites (h : Heap) (members holders : List ObjectId) :
    h.Rewrites (fun x o => if x ∈ members then
        { o with gcRefs := o.gcRefs - h.inEdgesFrom holders x } else o)
      (holders.foldl (discountReferences (index members)) h) := by
  induction holders generalizing h with
  | nil => exact (Heap.Rewrites.refl h).congr fun x o _ => by simp [Heap.inEdgesFrom]
  | cons r holders ih =>
    have one : h.Rewrites (fun x o => if x ∈ members then
        { o with gcRefs := o.gcRefs - (h.refs r).count x } else o)
        (discountReferences (index members) h r) := by
      unfold discountReferences
      split
      · next dead =>
        apply (Heap.Rewrites.refl h).congr
        intro x o _
        simp [Heap.refs_of_none dead]
      · next p hr =>
        rw [Heap.refs_of_get? hr]
        exact discount_rewrites h members p.references
    -- the references are still those of the original heap, so the rest of the holders hold the same
    have refs := one.refs fun x o => by split <;> rfl
    apply (one.trans (ih _)).congr
    intro x o _
    have cons : h.inEdgesFrom (r :: holders) x =
        (h.refs r).count x + h.inEdgesFrom holders x := by
      simp [Heap.inEdgesFrom]
    by_cases hx : x ∈ members
    · simp only [hx, if_true, Heap.inEdgesFrom_congr refs, cons]
      congr 1
      push_cast
      omega
    · simp only [hx, if_false]

/-- The external count of a member is the number of references to it that no member holds. -/
theorem externalCounts_rewrites (h : Heap) (members : List ObjectId) :
    h.Rewrites (fun x o => if x ∈ members then
        { o with gcRefs := o.strongCount - h.inEdgesFrom members x } else o)
      (externalCounts h members) := by
  have start := Heap.rewrites_foldl_modify (f := fun o => { o with gcRefs := o.strongCount })
    (fun _ => rfl) h members
  have refs := start.refs fun x o => by split <;> rfl
  apply (start.trans (discountReferences_rewrites _ members members)).congr
  intro x o _
  by_cases hx : x ∈ members
  · simp only [hx, if_true, Heap.inEdgesFrom_congr refs]
  · simp only [hx, if_false]

/-! ## Marking -/

/-- A member that somebody else refers to, or that leads from such a member to the other members. -/
inductive Held (h : Heap) (members : List ObjectId) : ObjectId → Prop where
  | outside {x : ObjectId} {o : Object} : x ∈ members → h.get? x = some o →
      h.inEdgesFrom members x < o.strongCount → Held h members x
  | step {x y : ObjectId} : Held h members x → y ∈ h.refs x → y ∈ members → Held h members y

theorem Held.mem (held : Held h members x) : x ∈ members := by
  cases held with
  | outside mem _ _ => exact mem
  | step _ _ mem => exact mem

/-- What counts tell is right: if no loose reference leads to members, a member is held if it is
supported. -/
theorem held_iff_supported {L : Loose} (B : h.Balanced L) (nodup : members.Nodup)
    (zero : ∀ x ∈ members, L x = 0) : Held h members x ↔ h.Supported members x := by
  constructor
  · intro held
    induction held with
    | @outside x o mem ho count =>
      by_cases root : 0 < o.rootCount
      · exact .root mem ⟨o, ho, root⟩
      · -- a reference that neither the host nor a member holds is held by somebody else
        have law := B.count ho
        have none := zero x mem
        obtain ⟨r, hr, outside⟩ : ∃ r, x ∈ h.refs r ∧ r ∉ members := by
          by_contra inside
          have only (r : ObjectId) (hr : x ∈ h.refs r) : r ∈ members := by
            by_contra outside
            exact inside ⟨r, hr, outside⟩
          have := Heap.inEdges_eq_inEdgesFrom nodup only
          omega
        exact .outside mem outside hr
    | step _ hy mem ih => exact .step ih hy mem
  · intro supported
    induction supported with
    | @root x mem rooted =>
      obtain ⟨o, ho, pos⟩ := rooted
      have law := B.count ho
      have sub := Heap.inEdgesFrom_le_inEdges (h := h) nodup x
      exact .outside mem ho (by omega)
    | @outside r x mem outside hr =>
      obtain ⟨p, hp, refers⟩ := Heap.isSome_of_mem_refs hr
      obtain ⟨o, ho⟩ := B.closed hp refers
      have law := B.count ho
      have more : h.inEdgesFrom members x < h.inEdges x := by
        by_contra all
        exact outside (Heap.mem_of_inEdges_le nodup (Nat.le_of_not_lt all) hr)
      exact .outside mem ho (by omega)
    | step _ hy mem ih => exact .step ih hy mem

/-- An object with its external count and its color, if it is a member. -/
def paint (h : Heap) (members : List ObjectId) (c : ObjectId → Color) (x : ObjectId) (o : Object) :
    Object :=
  if x ∈ members then
    { o with gcRefs := o.strongCount - h.inEdgesFrom members x, color := c x }
  else o

variable {c c' c'' : ObjectId → Color} {state : Heap × List ObjectId}

theorem unmarked_paint (h : Heap) (members : List ObjectId) (c : ObjectId → Color) (x : ObjectId)
    (o : Object) : (paint h members c x o).unmarked = o.unmarked := by
  unfold paint
  split <;> rfl

theorem setColor_rewrites (P : h.Rewrites (paint h members c) h') (hx : x ∈ members)
    (color : Color) :
    h.Rewrites (paint h members (Function.update c x color)) (setColor color h' x) := by
  apply (P.trans (Heap.rewrites_modify h' x _)).congr
  intro y o _
  unfold paint
  by_cases e : x = y
  · subst e
    simp [hx]
  · rw [if_neg e, Function.update_of_ne (Ne.symm e)]

/-- The course of the marking: the stack holds the gray members, and whatever is not white is
held. -/
structure Marking (h : Heap) (members : List ObjectId) (c : ObjectId → Color)
    (state : Heap × List ObjectId) : Prop where
  painted : h.Rewrites (paint h members c) state.1
  gray : ∀ x, c x = .gray ↔ x ∈ state.2
  nodup : state.2.Nodup
  held : ∀ x, c x ≠ .white → Held h members x

/-- Some white members have become gray. -/
structure Darkens (c c' : ObjectId → Color) : Prop where
  keep : ∀ x, c x ≠ .white → c' x = c x
  black : ∀ x, c' x = .black → c x = .black

theorem Darkens.refl (c : ObjectId → Color) : Darkens c c := ⟨fun _ _ => rfl, fun _ => id⟩

theorem Darkens.marked (D : Darkens c c') (marked : c x ≠ .white) : c' x ≠ .white := by
  rw [D.keep x marked]
  exact marked

theorem Darkens.trans (one : Darkens c c') (two : Darkens c' c'') : Darkens c c'' where
  keep x marked := (two.keep x (one.marked marked)).trans (one.keep x marked)
  black x black := one.black x (two.black x black)

theorem gray_marks (M : Marking h members c state) (hx : h.get? x = some o)
    (held : Held h members x) :
    ∃ c', Marking h members c' (gray state x) ∧ Darkens c c' ∧ c' x ≠ .white := by
  have painted := M.painted.get? hx
  have color : (paint h members c x o).color = c x := by simp [paint, held.mem]
  unfold gray
  rw [painted]
  -- only a white member is put on the stack
  by_cases white : c x = .white
  · refine ⟨Function.update c x .gray, ?_, ⟨fun y marked => ?_, fun y black => ?_⟩, by simp⟩
    · simp only [color, white, if_true]
      constructor
      · exact setColor_rewrites M.painted held.mem .gray
      · intro y
        rw [List.mem_cons, ← M.gray]
        by_cases e : y = x
        · simp [e]
        · simp [e]
      · refine List.nodup_cons.mpr ⟨fun mem => ?_, M.nodup⟩
        rw [← M.gray, white] at mem
        cases mem
      · intro y marked
        by_cases e : y = x
        · exact e ▸ held
        · rw [Function.update_of_ne e] at marked
          exact M.held y marked
    · have ne : y ≠ x := fun e => marked (e ▸ white)
      exact Function.update_of_ne ne _ _
    · by_cases e : y = x
      · rw [e, Function.update_self] at black
        cases black
      · rwa [Function.update_of_ne e] at black
  -- the object has been marked before
  · simp only [color, white, if_false]
    exact ⟨c, M, .refl c, white⟩

theorem grays_marks (live : ∀ x ∈ members, ∃ o, h.get? x = some o) {ys : List ObjectId}
    (M : Marking h members c state) (held : ∀ y ∈ ys, Held h members y) :
    ∃ c', Marking h members c' (ys.foldl gray state) ∧ Darkens c c' ∧ ∀ y ∈ ys, c' y ≠ .white := by
  induction ys generalizing c state with
  | nil => exact ⟨c, M, .refl c, fun y hy => absurd hy List.not_mem_nil⟩
  | cons y ys ih =>
    have hy := held y List.mem_cons_self
    obtain ⟨o, ho⟩ := live y hy.mem
    obtain ⟨c₁, M₁, D₁, marked⟩ := gray_marks M ho hy
    obtain ⟨c', M', D', all⟩ := ih M₁ fun z hz => held z (List.mem_cons_of_mem y hz)
    refine ⟨c', M', D₁.trans D', fun z hz => ?_⟩
    rcases List.mem_cons.mp hz with rfl | hz
    · exact D'.marked marked
    · exact all z hz

theorem grayExternals_marks (live : ∀ x ∈ members, ∃ o, h.get? x = some o) {ys : List ObjectId}
    (M : Marking h members c state) (sub : ∀ y ∈ ys, y ∈ members) :
    ∃ c', Marking h members c' (ys.foldl grayExternal state) ∧ Darkens c c' ∧
      ∀ y ∈ ys, ∀ o, h.get? y = some o → h.inEdgesFrom members y < o.strongCount →
        c' y ≠ .white := by
  induction ys generalizing c state with
  | nil => exact ⟨c, M, .refl c, fun y hy => absurd hy List.not_mem_nil⟩
  | cons y ys ih =>
    have mem := sub y List.mem_cons_self
    obtain ⟨o, ho⟩ := live y mem
    -- one member, then the others with the marks that it has left
    have one : ∃ c₁, Marking h members c₁ (grayExternal state y) ∧ Darkens c c₁ ∧
        (h.inEdgesFrom members y < o.strongCount → c₁ y ≠ .white) := by
      unfold grayExternal
      rw [M.painted.get? ho]
      by_cases external : h.inEdgesFrom members y < o.strongCount
      · have positive : (paint h members c y o).gcRefs > 0 := by
          simp only [paint, mem, if_true]
          omega
        rw [Option.any_some, if_pos (by simpa using positive)]
        obtain ⟨c₁, M₁, D₁, marked⟩ := gray_marks M ho (.outside mem ho external)
        exact ⟨c₁, M₁, D₁, fun _ => marked⟩
      · have zero : ¬ (paint h members c y o).gcRefs > 0 := by
          simp only [paint, mem, if_true]
          omega
        rw [Option.any_some, if_neg (by simpa using zero)]
        exact ⟨c, M, .refl c, fun e => absurd e external⟩
    obtain ⟨c₁, M₁, D₁, marked⟩ := one
    obtain ⟨c', M', D', all⟩ := ih M₁ fun z hz => sub z (List.mem_cons_of_mem y hz)
    refine ⟨c', M', D₁.trans D', fun z hz p hp external => ?_⟩
    rcases List.mem_cons.mp hz with rfl | hz
    · rw [ho, Option.some.injEq] at hp
      subst hp
      exact D'.marked (marked external)
    · exact all z hz p hp external

/-- No black member refers to a white one. -/
def Followed (h : Heap) (members : List ObjectId) (c : ObjectId → Color) : Prop :=
  ∀ x, c x = .black → ∀ y ∈ h.refs x, y ∈ members → c y ≠ .white

/-- Blackening the member on top of the stack grays what it refers to. -/
theorem blacken_marks (live : ∀ x ∈ members, ∃ o, h.get? x = some o) {stack : List ObjectId}
    (M : Marking h members c (h', x :: stack)) (followed : Followed h members c) :
    ∃ c', Marking h members c' (blacken (index members) h' stack x) ∧ Followed h members c' ∧
      (∀ y, c' y = .black ↔ y = x ∨ c y = .black) ∧ ∀ y, c y ≠ .white → c' y ≠ .white := by
  have gray : c x = .gray := (M.gray x).mpr List.mem_cons_self
  have held : Held h members x := M.held x (by simp [gray])
  obtain ⟨o, ho⟩ := live x held.mem
  obtain ⟨fresh, nodup⟩ := List.nodup_cons.mp M.nodup
  have references : (paint h members c x o).references = h.refs x := by
    rw [Heap.refs_of_get? ho, paint, if_pos held.mem]
  -- taking `x` from the stack and blackening it keeps the invariant; its children follow
  have M₁ : Marking h members (Function.update c x .black) (setColor .black h' x, stack) := by
    constructor
    · exact setColor_rewrites M.painted held.mem .black
    · intro y
      by_cases e : y = x
      · simp [e, fresh]
      · rw [Function.update_of_ne e, M.gray, List.mem_cons, or_iff_right e]
    · exact nodup
    · intro y marked
      by_cases e : y = x
      · exact e ▸ held
      · rw [Function.update_of_ne e] at marked
        exact M.held y marked
  have targets (y : ObjectId) :
      y ∈ (h.refs x).filter ((index members).contains ·) ↔ y ∈ h.refs x ∧ y ∈ members := by
    rw [List.mem_filter, contains_index]
  have children (y : ObjectId) (hy : y ∈ (h.refs x).filter ((index members).contains ·)) :
      Held h members y := held.step ((targets y).mp hy).1 ((targets y).mp hy).2
  obtain ⟨c', M', D, marked⟩ := grays_marks live M₁ children
  have later (y : ObjectId) (hy : c y ≠ .white) : c' y ≠ .white := by
    apply D.marked
    by_cases e : y = x
    · simp [e]
    · rwa [Function.update_of_ne e]
  have black (y : ObjectId) : c' y = .black ↔ y = x ∨ c y = .black := by
    by_cases e : y = x
    · subst e
      have : c' y = .black := by rw [D.keep y (by simp), Function.update_self]
      simp [this]
    · rw [or_iff_right e]
      constructor
      · intro black
        have := D.black y black
        rwa [Function.update_of_ne e] at this
      · intro black
        rw [D.keep y (by simp [e, black]), Function.update_of_ne e, black]
  refine ⟨c', ?_, ?_, black, later⟩
  · unfold blacken
    rw [M.painted.get? ho]
    show Marking h members c' (List.foldl _ _ (List.filter _ (paint h members c x o).references))
    rw [references]
    exact M'
  · intro y hy z hz mem
    rcases (black y).mp hy with rfl | hy
    · exact marked z ((targets z).mpr ⟨hz, mem⟩)
    · exact later z (followed y hy z hz mem)

/-- With one round for every member that is not black yet, the stack is empty at the end. -/
theorem propagate_marks (live : ∀ x ∈ members, ∃ o, h.get? x = some o) {rounds : Nat}
    (M : Marking h members c state) (followed : Followed h members c)
    (enough : (members.toFinset.filter (c · ≠ .black)).card ≤ rounds) :
    ∃ c', Marking h members c' (propagate (index members) rounds state) ∧
      (propagate (index members) rounds state).2 = [] ∧ Followed h members c' ∧
      ∀ y, c y ≠ .white → c' y ≠ .white := by
  induction rounds generalizing c state with
  | zero =>
    obtain ⟨h', stack⟩ := state
    refine ⟨c, M, ?_, followed, fun _ => id⟩
    -- without rounds left all members are black, and none is on the stack
    apply List.eq_nil_iff_forall_not_mem.mpr
    intro x hx
    have gray : c x = .gray := (M.gray x).mpr hx
    have held : Held h members x := M.held x (by simp [gray])
    have := Finset.card_eq_zero.mp (Nat.le_zero.mp enough)
    have mem : x ∈ members.toFinset.filter (c · ≠ .black) :=
      Finset.mem_filter.mpr ⟨List.mem_toFinset.mpr held.mem, by simp [gray]⟩
    rw [this] at mem
    exact absurd mem (Finset.notMem_empty x)
  | succ rounds ih =>
    obtain ⟨h', stack⟩ := state
    cases stack with
    | nil => exact ⟨c, M, rfl, followed, fun _ => id⟩
    | cons x stack =>
      obtain ⟨c₁, M₁, followed₁, black₁, later₁⟩ := blacken_marks live M followed
      have gray : c x = .gray := (M.gray x).mpr List.mem_cons_self
      have held : Held h members x := M.held x (by simp [gray])
      -- the measure is the number of members that are not black
      have fewer : (members.toFinset.filter (c₁ · ≠ .black)).card <
          (members.toFinset.filter (c · ≠ .black)).card := by
        refine Finset.card_lt_card ⟨?_, ?_⟩
        · intro y hy
          rw [Finset.mem_filter] at hy ⊢
          exact ⟨hy.1, fun black => hy.2 ((black₁ y).mpr (.inr black))⟩
        · intro sub
          have mem := sub (Finset.mem_filter.mpr ⟨List.mem_toFinset.mpr held.mem, by simp [gray]⟩)
          exact (Finset.mem_filter.mp mem).2 ((black₁ x).mpr (.inl rfl))
      obtain ⟨c', M', empty, followed', later'⟩ := ih M₁ followed₁ (by omega)
      exact ⟨c', M', empty, followed', fun y hy => later' y (later₁ y hy)⟩

/-- At first the members that references from outside lead to are gray, and the others white. -/
theorem opening_marks (live : ∀ x ∈ members, ∃ o, h.get? x = some o) :
    ∃ c, Marking h members c (opening (externalCounts h members) members) ∧
      (∀ x, c x ≠ .black) ∧ ∀ x ∈ members, ∀ o, h.get? x = some o →
        h.inEdgesFrom members x < o.strongCount → c x ≠ .white := by
  have whitened : h.Rewrites (paint h members fun _ => .white)
      (members.foldl (setColor .white) (externalCounts h members)) := by
    refine ((externalCounts_rewrites h members).trans (Heap.rewrites_foldl_modify
      (f := fun o => { o with color := .white }) (fun _ => rfl) _ members)).congr fun x o _ => ?_
    by_cases hx : x ∈ members <;> simp [paint, hx]
  have start : Marking h members (fun _ => .white)
      (members.foldl (setColor .white) (externalCounts h members), []) :=
    ⟨whitened, by simp, List.nodup_nil, fun x marked => absurd rfl marked⟩
  obtain ⟨c, M, D, external⟩ := grayExternals_marks live start fun y hy => hy
  refine ⟨c, M, fun x black => ?_, external⟩
  cases D.black x black

theorem followed_of_not_black (none : ∀ x, c x ≠ .black) : Followed h members c :=
  fun x black => absurd black (none x)

/-- The marking ends with an empty stack, and a member is black then if it is held, white if not. -/
theorem mark_black_iff (live : ∀ x ∈ members, ∃ o, h.get? x = some o) :
    ∃ c, h.Rewrites (paint h members c) (mark (externalCounts h members) members).1 ∧
      (mark (externalCounts h members) members).2 = [] ∧
      (∀ x, c x = .black ↔ Held h members x) ∧ ∀ x, c x ≠ .gray := by
  obtain ⟨c₁, M₁, none, external⟩ := opening_marks live
  have enough : (members.toFinset.filter (c₁ · ≠ .black)).card ≤ members.length :=
    Nat.le_trans (Finset.card_filter_le _ _) (List.toFinset_card_le members)
  obtain ⟨c, M, empty, followed, later⟩ :=
    propagate_marks live M₁ (followed_of_not_black none) enough
  -- with an empty stack no member is gray any more
  have never (y : ObjectId) : c y ≠ .gray := by
    intro gray
    have stacked := (M.gray y).mp gray
    rw [empty] at stacked
    exact absurd stacked List.not_mem_nil
  have black {y : ObjectId} (marked : c y ≠ .white) : c y = .black := by
    cases hc : c y with
    | white => exact absurd hc marked
    | gray => exact absurd hc (never y)
    | black => rfl
  refine ⟨c, M.painted, empty, fun x => ⟨fun black => M.held x (by simp [black]), fun held => ?_⟩,
    never⟩
  -- a held member is marked because what holds it is, up to the references from outside
  induction held with
  | outside mem ho count => exact black (later _ (external _ mem _ ho count))
  | step _ hy mem ih => exact black (followed _ ih _ hy mem)

/-! ## Partition -/

theorem sort_foldl (h : Heap) {xs : List ObjectId} (nodup : xs.Nodup)
    (black others : List ObjectId) :
    xs.foldl sort (h, black, others) = (xs.foldl (setColor .white) h,
      (xs.filter (isBlack h)).reverse ++ black,
      (xs.filter (!isBlack h ·)).reverse ++ others) := by
  induction xs generalizing h black others with
  | nil => rfl
  | cons x xs ih =>
    obtain ⟨fresh, nodup⟩ := List.nodup_cons.mp nodup
    -- whitening the first member does not change the mark of the others
    have same (y : ObjectId) (hy : y ∈ xs) : isBlack (setColor .white h x) y = isBlack h y := by
      have ne : x ≠ y := fun e => fresh (e ▸ hy)
      unfold isBlack setColor
      rw [Heap.get?_modify, if_neg ne]
    have others' := List.filter_congr (p := (!isBlack (setColor .white h x) ·))
      (q := (!isBlack h ·)) fun y hy => congrArg (! ·) (same y hy)
    rw [List.foldl_cons, List.foldl_cons]
    cases hx : isBlack h x with
    | true =>
      rw [show sort (h, black, others) x = (setColor .white h x, x :: black, others) from
        if_pos hx, ih _ nodup, List.filter_congr same, others']
      simp [hx]
    | false =>
      rw [show sort (h, black, others) x = (setColor .white h x, black, x :: others) from
        if_neg (by simp [hx]), ih _ nodup, List.filter_congr same, others']
      simp [hx]

/-- The members by mark, as two sublists. -/
theorem partition_eq (h : Heap) (nodup : members.Nodup) :
    partition h members = (members.foldl (setColor .white) h, members.filter (isBlack h),
      members.filter (!isBlack h ·)) := by
  have fold : partition h members =
      ((members.foldl sort (h, [], [])).1, (members.foldl sort (h, [], [])).2.1.reverse,
        (members.foldl sort (h, [], [])).2.2.reverse) := rfl
  rw [fold, sort_foldl h nodup]
  simp

/-- Members divided into those that are held from outside and the others, each in order. -/
structure Parted (h : Heap) (members reachable unreachable : List ObjectId) : Prop where
  sub_reachable : reachable.Sublist members
  sub_unreachable : unreachable.Sublist members
  mem_reachable : ∀ x, x ∈ reachable ↔ Held h members x
  mem_unreachable : ∀ x, x ∈ unreachable ↔ x ∈ members ∧ ¬ Held h members x

variable {reachable unreachable : List ObjectId}

open Classical in
/-- The division keeps the order of the held members. -/
theorem Parted.reachable_eq (P : Parted h members reachable unreachable) (nodup : members.Nodup) :
    reachable = members.filter (Held h members ·) := by
  refine (nodup.perm_iff_eq_of_sublist P.sub_reachable List.filter_sublist).mp ?_
  refine (List.perm_ext_iff_of_nodup (P.sub_reachable.nodup nodup) (nodup.filter _)).mpr fun x => ?_
  rw [P.mem_reachable, List.mem_filter, decide_eq_true_eq]
  exact ⟨fun held => ⟨held.mem, held⟩, And.right⟩

open Classical in
/-- The division keeps the order of the other members. -/
theorem Parted.unreachable_eq (P : Parted h members reachable unreachable) (nodup : members.Nodup) :
    unreachable = members.filter (¬ Held h members ·) := by
  refine (nodup.perm_iff_eq_of_sublist P.sub_unreachable List.filter_sublist).mp ?_
  refine (List.perm_ext_iff_of_nodup (P.sub_unreachable.nodup nodup) (nodup.filter _)).mpr
    fun x => ?_
  rw [P.mem_unreachable, List.mem_filter, decide_eq_true_eq]

/-- No member is lost in the division, and none is listed twice. -/
theorem Parted.perm (P : Parted h members reachable unreachable) (nodup : members.Nodup) :
    (reachable ++ unreachable).Perm members := by
  have apart : List.Disjoint reachable unreachable := fun x hx hx' =>
    ((P.mem_unreachable x).mp hx').2 ((P.mem_reachable x).mp hx)
  refine (List.perm_ext_iff_of_nodup ((P.sub_reachable.nodup nodup).append
    (P.sub_unreachable.nodup nodup) apart) nodup).mpr fun x => ?_
  rw [List.mem_append, P.mem_reachable, P.mem_unreachable]
  exact ⟨fun mem => mem.elim Held.mem And.left, fun mem =>
    (Classical.em (Held h members x)).imp id fun unheld => ⟨mem, unheld⟩⟩

/-- Members that are not held are not divided. -/
theorem parted_of_unheld (none : ∀ x, ¬ Held h members x) : Parted h members [] members where
  sub_reachable := List.nil_sublist _
  sub_unreachable := List.Sublist.refl _
  mem_reachable x := iff_of_false List.not_mem_nil (none x)
  mem_unreachable x := (and_iff_left (none x)).symm

/-- No member is deficient if the counts of all cover the references that members hold. -/
theorem deficient?_eq_none
    (covered : ∀ x o, h.get? x = some o → h.inEdgesFrom members x ≤ o.strongCount) :
    deficient? (externalCounts h members) members = none := by
  refine List.find?_eq_none.mpr fun x hx negative => ?_
  rw [(externalCounts_rewrites h members).objects] at negative
  cases ho : h.get? x with
  | none => simp [ho] at negative
  | some o =>
    have := covered x o ho
    simp [ho, hx] at negative
    omega

/-- The analysis as a whole leaves each member white, with its external count, and divides the
members. -/
theorem partition_paints (live : ∀ x ∈ members, ∃ o, h.get? x = some o) (nodup : members.Nodup) :
    ∃ h' reachable unreachable,
      partition (markReachable (externalCounts h members) members) members =
        (h', reachable, unreachable) ∧
      h.Rewrites (paint h members fun _ => .white) h' ∧ Parted h members reachable unreachable := by
  obtain ⟨c, marked, -, black, -⟩ := mark_black_iff live
  have mark {x : ObjectId} (hx : x ∈ members) :
      isBlack (markReachable (externalCounts h members) members) x = true ↔ Held h members x := by
    obtain ⟨o, ho⟩ := live x hx
    rw [← black x, isBlack, markReachable, marked.get? ho]
    simp [paint, hx]
  refine ⟨_, _, _, partition_eq _ nodup, ?_, List.filter_sublist, List.filter_sublist, ?_,
    ?_⟩
  · refine (marked.trans (Heap.rewrites_foldl_modify (f := fun o => { o with color := .white })
      (fun _ => rfl) _ members)).congr fun x o _ => ?_
    by_cases hx : x ∈ members <;> simp [paint, hx]
  · intro x
    rw [List.mem_filter]
    exact ⟨fun ⟨hx, e⟩ => (mark hx).mp e, fun held => ⟨held.mem, (mark held.mem).mpr held⟩⟩
  · intro x
    rw [List.mem_filter]
    apply and_congr_right
    intro hx
    rw [← mark hx]
    simp

end Analysis

end Reclaim
