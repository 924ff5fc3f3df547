import Reclaim.Proofs.CountingLaw
import Reclaim.Proofs.Shedding

/-!
# Collections among any candidates

What a collection leaves behind when no finalizer is pending, whichever objects it is asked to look
at. Garbage are the containers among the candidates that no reference from outside of them supports.
It goes, and with it whatever only it kept alive: `Heap.Doomed` is the least set of objects that
includes garbage and every object that the host does not hold and that only doomed objects refer to.
Everything else stays as it is but for the counts of the references that have gone
(`Heap.Remains`, `Cycles.collect_remains`).

The steps of the collection take references from doomed objects and take doomed objects out, and do
nothing else (`Machine.Step.remnant`). That all doomed objects are gone in the end is a matter of
counts: an object that is left has a reference left, from the host or from an object that is left.
-/

set_option autoImplicit false

namespace Reclaim

open Machine

namespace Object

/-- The object without its count and what is noted on it in the course of a collection. -/
def core (o : Object) : Object :=
  { o with strongCount := 0, freeing := false, color := .white, gcRefs := 0 }

theorem eq_of_core_eq {o p : Object} (same : p.core = o.core) :
    p = { o with strongCount := p.strongCount, freeing := p.freeing, color := p.color,
                 gcRefs := p.gcRefs } := by
  cases o
  cases p
  simp only [core, mk.injEq] at same ⊢
  simp [same]

end Object

namespace Heap

variable {h h₁ h₂ : Heap} {garbage : List ObjectId} {L L' : Loose} {x : ObjectId} {o p : Object}

/-- Garbage, and what dies with it: an object that the host does not hold and that only dying
objects refer to. -/
inductive Doomed (h : Heap) (garbage : List ObjectId) : ObjectId → Prop where
  | garbage {x : ObjectId} : x ∈ garbage → Doomed h garbage x
  | orphan {x : ObjectId} {o : Object} : h.get? x = some o → o.rootCount = 0 →
      (∀ r, x ∈ h.refs r → Doomed h garbage r) → Doomed h garbage x

open Classical in
/-- What is left of a heap when garbage and what dies with it are taken out: the other objects, each
with its references, and counted down by the references to it that have gone. -/
structure Remains (h : Heap) (garbage : List ObjectId) (h' : Heap) : Prop where
  nextId : h'.nextId = h.nextId
  live_iff : ∀ x, (∃ p, h'.get? x = some p) ↔ (∃ o, h.get? x = some o) ∧ ¬ h.Doomed garbage x
  kept : ∀ x o p, h.get? x = some o → h'.get? x = some p →
    p = { o with strongCount := p.strongCount, color := p.color, gcRefs := p.gcRefs } ∧
      o.strongCount = p.strongCount + ∑ r ∈ h.live with h.Doomed garbage r, (h.refs r).count x

/-! ## In the course of the collection -/

/-- A heap from which doomed objects are being taken: each of its objects is what it was, or is
doomed and has lost its references, and only doomed ones have gone. -/
structure Remnant (h : Heap) (garbage : List ObjectId) (h₁ : Heap) : Prop where
  nextId : h₁.nextId = h.nextId
  old : ∀ x p, h₁.get? x = some p → ∃ o, h.get? x = some o ∧
    (p.core = o.core ∨ h.Doomed garbage x ∧ p.core = o.clearReferences.core)
  gone : ∀ x o, h.get? x = some o → h₁.get? x = none → h.Doomed garbage x

theorem Remnant.refl (h : Heap) (garbage : List ObjectId) : h.Remnant garbage h where
  nextId := rfl
  old _ p hp := ⟨p, hp, .inl rfl⟩
  gone x o ho dead := by
    rw [ho] at dead
    cases dead

theorem Remnant.rootCount (R : h.Remnant garbage h₁) (hp : h₁.get? x = some p) :
    ∃ o, h.get? x = some o ∧ p.rootCount = o.rootCount := by
  obtain ⟨o, ho, same | ⟨-, same⟩⟩ := R.old x p hp
  · exact ⟨o, ho, congrArg (·.rootCount) same⟩
  · exact ⟨o, ho, congrArg (·.rootCount) same⟩

/-- References that are left were there before. -/
theorem Remnant.refs (R : h.Remnant garbage h₁) {r : ObjectId} (hx : x ∈ h₁.refs r) :
    x ∈ h.refs r := by
  obtain ⟨p, hp, mem⟩ := isSome_of_mem_refs hx
  obtain ⟨o, ho, same | ⟨-, same⟩⟩ := R.old r p hp
  · have references : p.references = o.references := congrArg (·.references) same
    rwa [refs_of_get? ho, ← references]
  · have references : p.references = [] := congrArg (·.references) same
    rw [references] at mem
    cases mem

/-- An object that only doomed ones still hold is doomed, as are the holders that it has lost. -/
theorem Remnant.doomed_of_held (R : h.Remnant garbage h₁) (hp : h₁.get? x = some p)
    (root : p.rootCount = 0) (held : ∀ r, x ∈ h₁.refs r → h.Doomed garbage r) :
    h.Doomed garbage x := by
  obtain ⟨o, ho, same⟩ := R.rootCount hp
  refine .orphan ho (same.symm.trans root) fun r hr => ?_
  obtain ⟨q, hq, mem⟩ := isSome_of_mem_refs hr
  cases hr₁ : h₁.get? r with
  | none => exact R.gone r q hq hr₁
  | some q₁ =>
    obtain ⟨q', hq', same | ⟨doomed, -⟩⟩ := R.old r q₁ hr₁
    -- a holder that is what it was still refers to the object
    · rw [hq, Option.some.injEq] at hq'
      subst hq'
      have references : q₁.references = q.references := congrArg (·.references) same
      exact held r (by rwa [refs_of_get? hr₁, references])
    · exact doomed

/-- An object that nobody holds any more has lost its holders, who were doomed. -/
theorem Remnant.orphan (R : h.Remnant garbage h₁) (hp : h₁.get? x = some p)
    (root : p.rootCount = 0) (none : h₁.inEdges x = 0) : h.Doomed garbage x :=
  R.doomed_of_held hp root fun r refers =>
    absurd refers (not_mem_refs_of_inEdges_eq_zero none r)

/-- Edits of counts and notes leave a remnant. -/
theorem Remnant.congr (R : h.Remnant garbage h₁) (nextId : h₂.nextId = h₁.nextId)
    (same : ∀ x, (h₂.get? x).map Object.core = (h₁.get? x).map Object.core) :
    h.Remnant garbage h₂ where
  nextId := nextId.trans R.nextId
  old x p hp := by
    have e := same x
    rw [hp, Option.map_some, eq_comm, Option.map_eq_some_iff] at e
    obtain ⟨q, hq, e⟩ := e
    obtain ⟨o, ho, kept⟩ := R.old x q hq
    rw [e] at kept
    exact ⟨o, ho, kept⟩
  gone x o ho dead := by
    have e := same x
    rw [dead, Option.map_none, eq_comm, Option.map_eq_none_iff] at e
    exact R.gone x o ho e

theorem Remnant.unlink (R : h.Remnant garbage h₁) (hp : h₁.get? x = some p)
    (doomed : h.Doomed garbage x) : h.Remnant garbage (h₁.put x p.clearReferences) where
  nextId := R.nextId
  old y q hq := by
    rw [get?_put] at hq
    split at hq
    · next e =>
      subst e
      cases hq
      obtain ⟨o, ho, same | ⟨-, same⟩⟩ := R.old x p hp
      · exact ⟨o, ho, .inr ⟨doomed, congrArg Object.clearReferences same⟩⟩
      · exact ⟨o, ho, .inr ⟨doomed, congrArg Object.clearReferences same⟩⟩
    · exact R.old y q hq
  gone y o ho dead := by
    rw [get?_put] at dead
    split at dead
    · cases dead
    · exact R.gone y o ho dead

theorem Remnant.erase (R : h.Remnant garbage h₁) (doomed : h.Doomed garbage x) :
    h.Remnant garbage (h₁.erase x) where
  nextId := R.nextId
  old y q hq := by
    rw [get?_erase] at hq
    split at hq
    · cases hq
    · exact R.old y q hq
  gone y o ho dead := by
    rw [get?_erase] at dead
    split at dead
    · next e => exact e ▸ doomed
    · exact R.gone y o ho dead

end Heap

/-- What a collection does that no finalizer interferes with: only garbage is swept. -/
def Scope.sweeping (garbage : List ObjectId) : Scope :=
  { Scope.idle.calm with sweeps := (· ∈ garbage), swept := False.elim }

/-- Where no finalizer is left, it does not matter how finalizers are run. -/
theorem Finalization.sound_zero (fin : Finalization) (sc : Scope) (b : Bool) : fin.Sound sc b 0 :=
  ⟨Nat.zero_le _, fun _ few => absurd few (Nat.not_lt_zero _)⟩

/-- Between operations nothing is marked as being freed. -/
theorem Heap.Consistent.idle {h : Heap} (C : h.Consistent) : h.FreeingIn fun _ => False := by
  intro x o ho freeing
  rw [C.settled ho] at freeing
  cases freeing

/-- When nothing is being freed and no finalizer is pending, a machine is ready for a sweep. -/
theorem Machine.At.sweeping {L : Loose} {s : Machine} (B : s.memory.heap.Balanced L)
    (idle : s.memory.heap.FreeingIn fun _ => False)
    (unhooked : ∀ x o, s.memory.heap.get? x = some o → o.pendingFinalizer? = none)
    (garbage : List ObjectId) :
    At (.sweeping garbage) s.memory.isCollecting L (fun _ => False) s := by
  refine ⟨⟨B, False.elim, fun hx pending => ?_, False.elim, False.elim⟩, idle, rfl⟩
  rw [unhooked _ _ hx] at pending
  cases pending

theorem Heap.Edit.remnant {h h₁ h₂ : Heap} {garbage : List ObjectId} {L L' : Loose}
    (edit : Edit (.sweeping garbage) (L, h₁) (L', h₂)) (B : h₁.Balanced L)
    (R : h.Remnant garbage h₁) : h.Remnant garbage h₂ := by
  cases edit with
  | mark unmarked => exact R.congr unmarked.nextId (unmarked.map_view fun _ => rfl)
  | lose hx => exact R.congr rfl (map_get?_put hx (by rfl))
  | spare hx _ => exact R.congr rfl (map_get?_put hx (by rfl))
  | hold hx => exact R.congr rfl (map_get?_put hx (by rfl))
  | unlink hx _ cause =>
    apply R.unlink hx
    rcases cause with zero | garbage
    -- an object without references is one whose holders have gone
    · obtain ⟨root, none, -⟩ := B.unreferenced hx zero
      exact R.orphan hx root none
    · exact .garbage garbage
  | save saving _ => exact saving.elim
  | retain may _ | giveUpRoot may _ | addEdge may _ | cut may _
  | setFinalizer may _ _ => cases Scope.idle_isIdle.inactive _ may

namespace Machine

variable {h : Heap} {garbage : List ObjectId} {L L' : Loose} {s s' : Machine}

/-- Every step of the collection takes doomed objects apart or takes them out. -/
theorem Step.remnant (step : Step (.sweeping garbage) (L, s) (L', s'))
    (S : s.memory.Sound (.sweeping garbage) L) (R : h.Remnant garbage s.memory.heap) :
    h.Remnant garbage s'.memory.heap := by
  cases step with
  | aside memory _ _ => exact memory ▸ R
  | note _ | collecting _ | configure _ _ _ | disown _ => exact R
  | edit edit => exact edit.remnant S.balanced R
  | finalize hx pending => exact (S.within.pending hx pending).2.elim
  | destroy hx _ root unreferenced run =>
    rw [Memory.exists_of_destroy hx run]
    exact R.erase (R.orphan hx root unreferenced)
  | book _ _ _ passes _ _ _ => exact passes.elim
  | allocate _ _ may => cases Scope.idle_isIdle.inactive _ may

theorem Steps.remnant {a b : Loose × Machine} (steps : Steps (.sweeping garbage) a b)
    (S : a.2.memory.Sound (.sweeping garbage) a.1) (R : h.Remnant garbage a.2.memory.heap) :
    h.Remnant garbage b.2.memory.heap := by
  induction steps with
  | refl => exact R
  | tail steps step ih => exact step.remnant (Steps.sound steps S) ih

end Machine

namespace Heap

variable {h h' : Heap} {garbage : List ObjectId} {x : ObjectId}

/-! ## At the end -/

/-- Counts that are right again leave no doomed object: each would need a reference. -/
theorem Remnant.dead (R : h.Remnant garbage h') (C : h'.Consistent)
    (gone : ∀ x ∈ garbage, h'.get? x = none) (doomed : h.Doomed garbage x) : h'.get? x = none := by
  induction doomed with
  | garbage mem => exact gone _ mem
  | @orphan x o ho root _ ih =>
    refine Option.eq_none_iff_forall_not_mem.mpr fun p hp => ?_
    obtain ⟨o', ho', same⟩ := R.rootCount hp
    rw [ho, Option.some.injEq] at ho'
    subst ho'
    have none : h'.inEdges x = 0 := inEdges_eq_zero fun r hr => by
      have dead := ih r (R.refs hr)
      rw [refs_of_none dead] at hr
      cases hr
    have count := C.count hp
    have positive := C.positive hp
    omega

/-- When all garbage is gone and counts are right again, just the doomed objects are missing. -/
theorem Remnant.live_iff (R : h.Remnant garbage h') (C' : h'.Consistent)
    (gone : ∀ x ∈ garbage, h'.get? x = none) (x : ObjectId) :
    (∃ p, h'.get? x = some p) ↔ (∃ o, h.get? x = some o) ∧ ¬ h.Doomed garbage x := by
  constructor
  · rintro ⟨p, hp⟩
    obtain ⟨o, ho, -⟩ := R.old x p hp
    refine ⟨⟨o, ho⟩, fun doomed => ?_⟩
    rw [R.dead C' gone doomed] at hp
    cases hp
  · rintro ⟨⟨o, ho⟩, spared⟩
    cases hp : h'.get? x with
    | none => exact absurd (R.gone x o ho hp) spared
    | some p => exact ⟨p, rfl⟩

/-- What is left is what it was, but for counts and notes. -/
theorem Remnant.core_eq (R : h.Remnant garbage h') (C' : h'.Consistent)
    (gone : ∀ x ∈ garbage, h'.get? x = none) {o p : Object} (ho : h.get? x = some o)
    (hp : h'.get? x = some p) : p.core = o.core := by
  obtain ⟨o', ho', same | ⟨doomed, -⟩⟩ := R.old x p hp
  · rw [ho, Option.some.injEq] at ho'
    rw [same, ho']
  · rw [R.dead C' gone doomed] at hp
    cases hp

open Classical in
/-- The references to an object fall into those that are left and those of doomed objects. -/
theorem Remnant.inEdges_eq (R : h.Remnant garbage h') (C' : h'.Consistent)
    (gone : ∀ x ∈ garbage, h'.get? x = none) (x : ObjectId) :
    h.inEdges x =
      h'.inEdges x + ∑ r ∈ h.live with h.Doomed garbage r, (h.refs r).count x := by
  have refs (r : ObjectId) : h'.refs r = if h.Doomed garbage r then [] else h.refs r := by
    split
    · next doomed => rw [refs_of_none (R.dead C' gone doomed)]
    · next spared =>
      cases hr : h.get? r with
      | none =>
        have dead : h'.get? r = none := Option.eq_none_iff_forall_not_mem.mpr fun q hq => by
          obtain ⟨o, ho, -⟩ := R.old r q hq
          rw [hr] at ho
          cases ho
        rw [refs_of_none dead, refs_of_none hr]
      | some o =>
        obtain ⟨q, hq⟩ := (R.live_iff C' gone r).mpr ⟨⟨o, hr⟩, spared⟩
        rw [refs_of_get? hq, refs_of_get? hr]
        exact congrArg (·.references) (R.core_eq C' gone hr hq)
  have live (r : ObjectId) (q : Object) (hr : h'.get? r = some q) : r ∈ h.live := by
    obtain ⟨o, ho, -⟩ := R.old r q hr
    exact mem_live.mpr ⟨o, ho⟩
  have left (r : ObjectId) :
      (h'.refs r).count x = if ¬ h.Doomed garbage r then (h.refs r).count x else 0 := by
    rw [refs]
    by_cases doomed : h.Doomed garbage r <;> simp [doomed]
  rw [inEdges_eq_sum (fun r q hr => mem_live.mpr ⟨q, hr⟩), inEdges_eq_sum live]
  simp only [left]
  rw [← Finset.sum_filter, add_comm]
  exact (Finset.sum_filter_add_sum_filter_not _ _ _).symm

/-- When all garbage is gone and counts are right again, the heap is what remains. -/
theorem Remnant.remains (R : h.Remnant garbage h') (C : h.Consistent) (C' : h'.Consistent)
    (gone : ∀ x ∈ garbage, h'.get? x = none) : h.Remains garbage h' where
  nextId := R.nextId
  live_iff := R.live_iff C' gone
  kept x o p ho hp := by
    have same := R.core_eq C' gone ho hp
    have e := Object.eq_of_core_eq same
    have root : p.rootCount = o.rootCount := congrArg (·.rootCount) same
    have split := R.inEdges_eq C' gone x
    have count := C.count ho
    have count' := C'.count hp
    refine ⟨?_, by omega⟩
    rw [C'.settled hp, ← C.settled ho] at e
    exact e

end Heap

namespace Cycles

variable {h : Heap} {s : Machine} {xs : List ObjectId} {options : PassOptions}

/-- The live containers among some handles. -/
def containers (h : Heap) (xs : List ObjectId) : List ObjectId :=
  xs.filter fun x => (h.get? x).any (·.isContainer)

/-- Between operations nothing is being freed, so all live containers are looked at. -/
theorem members_eq_containers (C : h.Consistent) (xs : List ObjectId) :
    members h xs = containers h xs := by
  refine List.filter_congr fun x _ => ?_
  cases hx : h.get? x with
  | none => rfl
  | some o => simp [C.settled hx]

open Classical in
/-- A collection that no finalizer interferes with does exactly this. It collects the containers
among the candidates that nothing from outside of them supports; what survives are the others,
except for those that only garbage kept alive; and the heap is what remains without garbage. -/
theorem collect_remains (C : s.memory.heap.Consistent) (K : s.memory.heap.Keyed)
    (unhooked : ∀ x o, s.memory.heap.get? x = some o → o.pendingFinalizer? = none)
    (nodup : xs.Nodup) (discards : options.saveGarbage = false) (fin : Finalization) (g : Int) :
    ∃ r s', collect fin g xs options s = .ok r s' ∧ s'.starved = s.starved ∧
      r.collected = (containers s.memory.heap xs).filter
        (¬ s.memory.heap.Supported (containers s.memory.heap xs) ·) ∧
      r.resurrected = [] ∧
      r.survivors = (containers s.memory.heap xs).filter (fun x =>
        s.memory.heap.Supported (containers s.memory.heap xs) x ∧
          ¬ s.memory.heap.Doomed r.collected x) ∧
      s.memory.heap.Remains r.collected s'.memory.heap := by
  rw [← members_eq_containers C]
  have B := C.balanced K
  have distinct : (members s.memory.heap xs).Nodup := nodup.filter _
  let garbage := (members s.memory.heap xs).filter
    (¬ Analysis.Held s.memory.heap (members s.memory.heap xs) ·)
  -- in the scope of a sweep no finalizer is run, whichever way finalizers are run
  have F : fin.Sound (.sweeping garbage) s.memory.isCollecting 0 :=
    ⟨Nat.zero_le _, fun _ few => absurd few (Nat.not_lt_zero _)⟩
  have A : At (.sweeping garbage) s.memory.isCollecting Loose.none (fun _ => False) s := by
    refine ⟨⟨B, False.elim, fun hx pending => ?_, False.elim, False.elim⟩, fun x o ho f => ?_, rfl⟩
    · rw [unhooked _ _ hx] at pending
      cases pending
    · rw [C.settled ho] at f
      cases f
  obtain ⟨k⟩ := collect_course F A (Nat.le_refl 0) nodup (fun x mem unheld =>
    List.mem_filter.mpr ⟨mem, decide_eq_true unheld⟩) g options fun saves => by
      rw [discards] at saves
      cases saves
  obtain ⟨-, swept, collected, resurrected⟩ := k.quiet A nodup fun x _ => unhooked x
  have supported (x : ObjectId) := Analysis.held_iff_supported (x := x) B distinct fun _ _ => rfl
  have unreachable : k.unreachable = garbage := k.parted.unreachable_eq distinct
  -- counts are right again at the end, so all that is doomed is gone
  have R : s.memory.heap.Remnant garbage k.after.memory.heap :=
    Steps.remnant k.leads.steps A.sound (.refl _ _)
  have consistent := k.sweeps.there.consistent
  have remains : s.memory.heap.Remains k.report.collected k.after.memory.heap := by
    rw [collected, unreachable]
    exact R.remains C consistent fun x hx => k.gone discards x (by rwa [swept, unreachable])
  refine ⟨k.report, k.after, k.collect_eq, Steps.starved k.leads.steps, ?_, resurrected, ?_,
    remains⟩
  · rw [collected, unreachable]
    exact List.filter_congr fun x _ => by rw [supported]
  · rw [k.survivors, k.parted.reachable_eq distinct, resurrected]
    simp only [discards, Bool.false_eq_true, if_false, List.append_nil, List.filter_filter]
    refine List.filter_congr fun x hx => ?_
    obtain ⟨-, o, ho, -⟩ := mem_members.mp hx
    have live : k.after.memory.heap.contains x = true ↔
        ¬ s.memory.heap.Doomed k.report.collected x := by
      rw [contains_iff, remains.live_iff]
      exact and_iff_right ⟨o, ho⟩
    rw [Bool.eq_iff_iff, Bool.and_eq_true, live, decide_eq_true_eq, decide_eq_true_eq, supported,
      and_comm]

/-- A container that refers to itself, to a second one and twice to a fourth one; the second one
refers to a third one. The host holds the fourth one only. -/
def adrift : Machine :=
  (({} : Machine).performAll [
    .call (.allocate .container "node"), .call (.allocate .container "node"),
    .call (.allocate .container "node"), .call (.allocate .container "node"),
    .call (.addEdge (.id 1) (.id 1)), .call (.addEdge (.id 1) (.id 2)),
    .call (.addEdge (.id 2) (.id 3)), .call (.addEdge (.id 1) (.id 4)),
    .call (.addEdge (.id 1) (.id 4)), .call (.release (.id 1)), .call (.release (.id 2)),
    .call (.release (.id 3))]).2

theorem settled_adrift : adrift.memory.Settled :=
  (Attained.performAll (.start none rfl) (by rfl)).settled

theorem unhooked_adrift (x : ObjectId) (o : Object) (hx : adrift.memory.heap.get? x = some o) :
    o.pendingFinalizer? = none := by
  have all : adrift.memory.heap.toList.all (·.pendingFinalizer?.isNone) = true := by
    decide +kernel
  exact Option.isNone_iff_eq_none.mp (List.all_eq_true.mp all o (Heap.mem_toList.mpr ⟨x, hx⟩))

theorem collect_remains_adrift :
    ∃ r s', collect ⟨0, fun _ _ => pure ()⟩ 0 [1, 3, 4, 9] {} adrift = .ok r s' ∧
      adrift.memory.heap.Remains r.collected s'.memory.heap ∧
      r.collected = [1] ∧ r.survivors = [4] ∧
      s'.memory.heap.toList.map (fun o => (o.id, o.strongCount)) = [(4, 1)] := by
  obtain ⟨r, s', run, -, -, -, -, remains⟩ := @collect_remains adrift [1, 3, 4, 9] {}
    settled_adrift.consistent settled_adrift.balanced.isKeyed unhooked_adrift (by decide) rfl
    ⟨0, fun _ _ => pure ()⟩ 0
  have facts : (match collect ⟨0, fun _ _ => pure ()⟩ 0 [1, 3, 4, 9] {} adrift with
      | .ok r s' => some (r.collected, r.survivors,
          s'.memory.heap.toList.map fun o => (o.id, o.strongCount))
      | .error _ _ => none) = some ([1], [4], [(4, 1)]) := by decide +kernel
  rw [run] at facts
  simp only [Option.some.injEq, Prod.mk.injEq] at facts
  exact ⟨r, s', run, remains, facts⟩

/-- What survives need not be all that is not collected: the third container is supported by the
second one, which is no candidate, and dies with it when the reference of the first one is given
back. -/
theorem survivors_adrift :
    adrift.memory.heap.Consistent ∧ adrift.memory.heap.Keyed ∧
      (∀ x o, adrift.memory.heap.get? x = some o → o.pendingFinalizer? = none) ∧
      [1, 3, 4, 9].Nodup ∧
      ¬ ∀ r s', collect ⟨0, fun _ _ => pure ()⟩ 0 [1, 3, 4, 9] {} adrift = .ok r s' →
        r.survivors = (containers adrift.memory.heap [1, 3, 4, 9]).filter (· ∉ r.collected) := by
  refine ⟨settled_adrift.consistent, settled_adrift.balanced.isKeyed, unhooked_adrift, by decide,
    fun remaining => ?_⟩
  have facts : (match collect ⟨0, fun _ _ => pure ()⟩ 0 [1, 3, 4, 9] {} adrift with
      | .ok r _ => decide (r.survivors =
          (containers adrift.memory.heap [1, 3, 4, 9]).filter (· ∉ r.collected))
      | .error _ _ => true) = false := by decide +kernel
  cases run : collect ⟨0, fun _ _ => pure ()⟩ 0 [1, 3, 4, 9] {} adrift with
  | ok r s' =>
    rw [run] at facts
    exact absurd (remaining r s' run) (of_decide_eq_false facts)
  | error _ _ =>
    rw [run] at facts
    cases facts

end Cycles

end Reclaim
