import Mathlib.Order.Bounds.Basic
import Reclaim.Proofs.PartialCollection

/-!
# What a release frees

Giving back a reference while no finalizer is pending frees a least set: with the reference taken
from its holder, the objects that die are those that have to be in every set which takes in each
object that the host does not hold and that only members refer to (`Heap.Engulfs`). The queue of the
cascade, its order and its marks do not show in the outcome (`Host.call_frees_least`).

`Machine.Buries` says which objects have died between two moments, once each, and what the collector
has done about it: struck the containers from the buckets of their ages and counted every death. It
holds of each step that is taken on the way, and so of the way as a whole (`Machine.Steps.buries`).
-/

set_option autoImplicit false

namespace Reclaim

open Machine

/-- The object that is freed, if one is. -/
def Event.frees? : Event → Option ObjectId
  | .freeing x => some x
  | _ => none

/-- The objects that were freed, last ones first, one for each time. -/
def freedIn (ms : List Moment) : List ObjectId := ms.filterMap (·.event.frees?)

theorem Event.frees?_of_isNote {event : Event} (note : event.isNote = true) :
    event.frees? = none := by
  cases event <;> first | rfl | cases note

/-! ## Deaths -/

namespace Tracker

variable {h h' : Heap} {dead later : List ObjectId} {t t' t'' : Tracker} {x : ObjectId} {o : Object}

/-- What becomes of a tracker when objects of a heap die: containers are struck from the buckets of
their ages, and every death is counted. -/
structure Struck (h : Heap) (dead : List ObjectId) (t t' : Tracker) : Prop where
  bucket : ∀ (g : Generation) (y : ObjectId), y ∈ t'.bucket g ↔
    y ∈ t.bucket g ∧ ¬ (y ∈ dead ∧ h.filing y = some (.container, (g.val : Int)))
  counts : ∀ g, t'.counts.get g =
    if g = Generation.youngest then t.counts.get g - dead.length else t.counts.get g
  thresholds : t'.thresholds = t.thresholds
  collections : t'.collections = t.collections

theorem Struck.refl (h : Heap) (t : Tracker) : t.Struck h [] t where
  bucket g y := by simp
  counts g := by simp
  thresholds := rfl
  collections := rfl

theorem Struck.trans (one : Struck h dead t t') (two : Struck h' later t' t'')
    (same : ∀ y ∈ later, h'.filing y = h.filing y) : Struck h (later ++ dead) t t'' where
  bucket g y := by
    rw [two.bucket, one.bucket, List.mem_append]
    by_cases died : y ∈ later
    · rw [same y died]
      tauto
    · tauto
  counts g := by
    rw [two.counts, one.counts, List.length_append]
    split
    · omega
    · rfl
  thresholds := two.thresholds.trans one.thresholds
  collections := two.collections.trans one.collections

theorem Struck.congr (struck : Struck h dead t t') (same : ∀ y, h'.filing y = h.filing y) :
    Struck h' dead t t' where
  bucket g y := by
    rw [same]
    exact struck.bucket g y
  counts := struck.counts
  thresholds := struck.thresholds
  collections := struck.collections

theorem struck_deallocated (hx : h.get? x = some o) (id : o.id = x) (t : Tracker) :
    t.Struck h [x] (t.deallocated o) where
  bucket g y := by
    rw [mem_deallocated, List.mem_singleton, id]
    have filing : h.filing x = some (o.kind, o.generation) := by
      rw [Heap.filing, hx, Option.map_some]
    refine and_congr_right fun _ => not_congr ?_
    constructor
    · rintro ⟨kind, age, rfl⟩
      exact ⟨rfl, by rw [filing, kind, age]⟩
    · rintro ⟨rfl, filed⟩
      rw [filing, Option.some.injEq, Prod.mk.injEq] at filed
      exact ⟨filed.1, filed.2, rfl⟩
  counts g := by
    have counts : (t.deallocated o).counts = t.counts.update .youngest (· - 1) := by
      unfold deallocated untrack
      split
      · split <;> rfl
      · rfl
    rw [counts, PerGeneration.get_update]
    by_cases youngest : g = Generation.youngest
    · simp [youngest]
    · rw [if_neg youngest, if_neg (Ne.symm youngest)]
  thresholds := congrArg Pace.thresholds (pace_deallocated (.replicate 3 {}) t o)
  collections := congrArg (·.books.collections) (pace_deallocated (.replicate 3 {}) t o)

/-- Which objects have died decides what a tracker has become. -/
theorem Struck.unique (one : Struck h dead t t') (two : Struck h later t t'')
    (same : dead.Perm later) : t' = t'' := by
  have buckets : t'.buckets = t''.buckets := by
    apply Vector.ext
    intro i hi
    apply Std.ExtTreeSet.ext_mem
    intro y
    have first := one.bucket ⟨i, hi⟩ y
    have second := two.bucket ⟨i, hi⟩ y
    rw [same.mem_iff] at first
    exact first.trans second.symm
  have counts : t'.counts = t''.counts := by
    apply Vector.ext
    intro i hi
    have first := one.counts ⟨i, hi⟩
    have second := two.counts ⟨i, hi⟩
    rw [same.length_eq] at first
    exact first.trans second.symm
  have thresholds := one.thresholds.trans two.thresholds.symm
  have collections := one.collections.trans two.collections.symm
  cases t'
  cases t''
  simp only [mk.injEq]
  exact ⟨buckets, thresholds, counts, collections⟩

end Tracker

namespace Machine

variable {garbage dead later : List ObjectId} {L L' : Loose} {s s' s'' : Machine} {x : ObjectId}

/-- Objects die, each once and with a word in the journal, and the collector hears of it. Nothing
else is filed in another place. -/
structure Buries (s : Machine) (dead : List ObjectId) (s' : Machine) : Prop where
  journal : ∃ ms, s'.journal = ms ++ s.journal ∧ freedIn ms = dead
  freed : s'.memory.heap.freed = s.memory.heap.freed + dead.length
  nodup : dead.Nodup
  live : ∀ x ∈ dead, (s.memory.heap.filing x).isSome
  filing : ∀ x, s'.memory.heap.filing x = if x ∈ dead then none else s.memory.heap.filing x
  collector : s'.memory.collector.isSome = s.memory.collector.isSome
  tracker : ∀ c c', s.memory.collector = some c → s'.memory.collector = some c' →
    c.tracker.Struck s.memory.heap dead c'.tracker

/-- What does not touch the books of the collector buries nobody. -/
theorem Buries.nobody (journal : ∃ ms, s'.journal = ms ++ s.journal ∧ freedIn ms = [])
    (freed : s'.memory.heap.freed = s.memory.heap.freed)
    (filing : ∀ x, s'.memory.heap.filing x = s.memory.heap.filing x)
    (tracker : s'.memory.collector.map (·.tracker) = s.memory.collector.map (·.tracker)) :
    s.Buries [] s' where
  journal := journal
  freed := freed
  nodup := List.nodup_nil
  live _ mem := absurd mem List.not_mem_nil
  filing x := by
    rw [if_neg List.not_mem_nil]
    exact filing x
  collector := by
    have same := congrArg Option.isSome tracker
    rwa [Option.isSome_map, Option.isSome_map] at same
  tracker c c' hc hc' := by
    rw [hc, hc', Option.map_some, Option.map_some, Option.some.injEq] at tracker
    rw [tracker]
    exact .refl _ _

theorem Buries.refl (s : Machine) : s.Buries [] s :=
  .nobody ⟨[], rfl, rfl⟩ rfl (fun _ => rfl) rfl

theorem Buries.trans (one : s.Buries dead s') (two : s'.Buries later s'') :
    s.Buries (later ++ dead) s'' := by
  -- who dies later has not died before
  have new (y : ObjectId) (died : y ∈ later) : y ∉ dead := by
    intro before
    have live := two.live y died
    rw [one.filing, if_pos before] at live
    cases live
  have kept (y : ObjectId) (died : y ∈ later) :
      s'.memory.heap.filing y = s.memory.heap.filing y := by
    rw [one.filing, if_neg (new y died)]
  constructor
  case journal =>
    obtain ⟨ms, journal, deaths⟩ := one.journal
    obtain ⟨ms', journal', deaths'⟩ := two.journal
    refine ⟨ms' ++ ms, ?_, ?_⟩
    · rw [journal', journal, List.append_assoc]
    · rw [freedIn, List.filterMap_append]
      exact congrArg₂ (· ++ ·) deaths' deaths
  case freed =>
    rw [two.freed, one.freed, List.length_append]
    omega
  case nodup => exact two.nodup.append one.nodup fun y died before => new y died before
  case live =>
    intro y mem
    rcases List.mem_append.mp mem with died | before
    · rw [← kept y died]
      exact two.live y died
    · exact one.live y before
  case filing =>
    intro y
    rw [two.filing, one.filing]
    by_cases died : y ∈ later <;> by_cases before : y ∈ dead <;> simp [died, before]
  case collector => exact two.collector.trans one.collector
  case tracker =>
    intro c c'' hc hc''
    have present := one.collector
    rw [hc] at present
    obtain ⟨c', hc'⟩ := Option.isSome_iff_exists.mp present
    exact (one.tracker c c' hc hc').trans (two.tracker c' c'' hc' hc'') kept

/-- Those who have died were live before and are not any more. -/
theorem Buries.mem_iff (buries : s.Buries dead s') :
    x ∈ dead ↔ (∃ o, s.memory.heap.get? x = some o) ∧ s'.memory.heap.get? x = none := by
  have filing := buries.filing x
  unfold Heap.filing at filing
  constructor
  · intro died
    have live := buries.live x died
    rw [Heap.filing, Option.isSome_map] at live
    rw [if_pos died, Option.map_eq_none_iff] at filing
    exact ⟨Option.isSome_iff_exists.mp live, filing⟩
  · rintro ⟨⟨o, ho⟩, gone⟩
    by_contra spared
    rw [if_neg spared, ho, gone] at filing
    cases filing

/-- A step of the library buries at most one object. -/
theorem Step.buries (step : Step (.sweeping garbage) (L, s) (L', s'))
    (B : s.memory.heap.Balanced L) : ∃ dead, s.Buries dead s' := by
  cases step with
  | aside memory journal _ =>
    refine ⟨[], .nobody ⟨[], journal, rfl⟩ ?_ ?_ ?_⟩
    · rw [memory]
    · rw [memory]
      exact fun _ => rfl
    · rw [memory]
  | note note =>
    exact ⟨[], .nobody ⟨[_], rfl, List.filterMap_cons_none (Event.frees?_of_isNote note)⟩ rfl
      (fun _ => rfl) rfl⟩
  | edit edit =>
    refine ⟨[], .nobody ⟨[], rfl, rfl⟩ edit.numbers.2 (fun y => ?_) rfl⟩
    have fixed := congrArg (Option.map fun v : Kind × Int × Bool => (v.1, v.2.1)) (edit.fixed y)
    rwa [Option.map_map, Option.map_map] at fixed
  | finalize hx _ =>
    exact ⟨[], .nobody ⟨[_], rfl, rfl⟩ rfl (Heap.map_get?_put hx (by rfl)) rfl⟩
  | collecting _ =>
    refine ⟨[], .nobody ⟨[], rfl, rfl⟩ rfl (fun _ => rfl) ?_⟩
    exact Option.map_map ..
  | @destroy L s x o m' hx _ _ _ run =>
    rw [Memory.exists_of_destroy hx run]
    refine ⟨[x], ⟨[_], rfl, rfl⟩, rfl, List.nodup_singleton x, ?_, fun y => ?_, Option.isSome_map,
      ?_⟩
    · intro y mem
      rw [List.mem_singleton.mp mem, Heap.filing, hx]
      rfl
    · rw [withMemory_memory, Heap.filing, Heap.get?_erase]
      by_cases e : x = y
      · simp [e]
      · rw [if_neg e, if_neg (by simpa using Ne.symm e)]
        rfl
    · intro c c' hc hc'
      have hc'' : s.memory.collector.map (fun c =>
          { c with tracker := c.tracker.deallocated o }) = some c' := hc'
      rw [hc, Option.map_some, Option.some.injEq] at hc''
      rw [← hc'']
      exact Tracker.struck_deallocated hx (B.keyed hx).1 c.tracker
  | book _ _ _ passes _ _ _ => exact passes.elim
  | allocate _ _ may | configure may _ _ | disown may => cases Scope.idle_isIdle.inactive _ may

theorem Steps.buries {a b : Loose × Machine} (steps : Steps (.sweeping garbage) a b)
    (S : a.2.memory.Sound (.sweeping garbage) a.1) : ∃ dead, a.2.Buries dead b.2 := by
  induction steps with
  | refl => exact ⟨[], .refl _⟩
  | tail steps step ih =>
    obtain ⟨dead, buries⟩ := ih
    obtain ⟨later, more⟩ := step.buries (Steps.sound steps S).balanced
    exact ⟨later ++ dead, buries.trans more⟩

end Machine

/-! ## The least set -/

namespace Heap

variable {h h' : Heap} {x y : ObjectId} {o : Object}

/-- A set takes in every object that the host does not hold and that only members refer to. -/
def Engulfs (h : Heap) (F : Set ObjectId) : Prop :=
  ∀ x o, h.get? x = some o → o.rootCount = 0 → (∀ r, x ∈ h.refs r → r ∈ F) → x ∈ F

theorem isLeast_doomed (h : Heap) : IsLeast {F | h.Engulfs F} {x | h.Doomed [] x} := by
  constructor
  · intro x o ho root only
    exact .orphan ho root only
  · intro F engulfs x doomed
    induction doomed with
    | garbage mem => cases mem
    | orphan ho root _ ih => exact engulfs _ _ ho root ih

theorem unhooked_of_map (same : ∀ x, (h'.get? x).map Object.pendingFinalizer? =
      (h.get? x).map Object.pendingFinalizer?)
    (unhooked : ∀ x o, h.get? x = some o → o.pendingFinalizer? = none) (x : ObjectId) (p : Object)
    (hp : h'.get? x = some p) : p.pendingFinalizer? = none := by
  have e := same x
  rw [hp, Option.map_some, eq_comm, Option.map_eq_some_iff] at e
  obtain ⟨o, ho, e⟩ := e
  rw [← e]
  exact unhooked x o ho

theorem Doomed.live (doomed : h.Doomed [] x) : ∃ o, h.get? x = some o := by
  cases doomed with
  | garbage mem => cases mem
  | orphan ho _ _ => exact ⟨_, ho⟩

end Heap

/-- A call takes a reference to an object from its holder, the host or another object. -/
inductive Call.Takes (self : ObjectId) (h : Heap) : Call → ObjectId → Heap → Prop where
  | release {id : Operand} {h' : Heap} : h.giveUpRoot (id.resolve self) = .ok h' →
      Takes self h (.release id) (id.resolve self) h'
  | removeEdge {source target : Operand} {h' : Heap} :
      h.cut (source.resolve self) (target.resolve self) = .ok h' →
      Takes self h (.removeEdge source target) (target.resolve self) h'

theorem Call.Takes.numbers {self x : ObjectId} {h h' : Heap} {c : Call}
    (takes : c.Takes self h x h') : h'.nextId = h.nextId ∧ h'.freed = h.freed := by
  cases takes with
  | release given =>
    obtain ⟨o, n, -, -, rfl⟩ := Heap.exists_of_giveUpRoot given
    exact ⟨rfl, rfl⟩
  | removeEdge given =>
    obtain ⟨o, -, -, rfl⟩ := Heap.exists_of_cut given
    exact ⟨rfl, rfl⟩

/-- The reference that has been taken from its holder is loose. -/
theorem Call.Takes.loose {self x : ObjectId} {h h' : Heap} {c : Call} (takes : c.Takes self h x h')
    (C : h.Consistent) (K : h.Keyed) :
    h'.Balanced (Loose.none.add [x]) ∧ h'.FreeingIn fun _ => False := by
  cases takes with
  | release given => exact ⟨(C.balanced K).giveUpRoot given, C.idle.giveUpRoot given⟩
  | removeEdge given => exact ⟨(C.balanced K).cut given, C.idle.cut given⟩

/-- The calls that give a reference back. -/
def Call.givesBack : Call → Bool
  | .release _ => true
  | .removeEdge _ _ => true
  | _ => false

namespace Machine

variable {dead : List ObjectId} {L : Loose} {s s' : Machine} {x y : ObjectId} {o p : Object}

/-- What giving back references does while no finalizer is pending. -/
structure Drops (s : Machine) (dead : List ObjectId) (s' : Machine) : Prop
    extends Buries s dead s' where
  remnant : s.memory.heap.Remnant [] s'.memory.heap
  consistent : s'.memory.heap.Consistent
  keyed : s'.memory.heap.Keyed

theorem Drops.mem_iff_doomed (drops : s.Drops dead s') :
    x ∈ dead ↔ s.memory.heap.Doomed [] x := by
  rw [drops.toBuries.mem_iff]
  constructor
  · rintro ⟨⟨o, ho⟩, gone⟩
    exact drops.remnant.gone x o ho gone
  · intro doomed
    refine ⟨doomed.live, drops.remnant.dead drops.consistent (fun _ mem => ?_) doomed⟩
    cases mem

theorem Drops.isLeast (drops : s.Drops dead s') :
    IsLeast {F | s.memory.heap.Engulfs F} {x | x ∈ dead} := by
  have same : {x | x ∈ dead} = {x | s.memory.heap.Doomed [] x} :=
    Set.ext fun _ => drops.mem_iff_doomed
  rw [same]
  exact s.memory.heap.isLeast_doomed

/-- What lives on is what was there and has not died. -/
theorem Drops.live_iff (drops : s.Drops dead s') (x : ObjectId) :
    (∃ p, s'.memory.heap.get? x = some p) ↔
      (∃ o, s.memory.heap.get? x = some o) ∧ x ∉ dead := by
  rw [drops.mem_iff_doomed]
  exact drops.remnant.live_iff drops.consistent (fun _ mem => absurd mem List.not_mem_nil) x

theorem Drops.core_eq (drops : s.Drops dead s') (ho : s.memory.heap.get? x = some o)
    (hp : s'.memory.heap.get? x = some p) : p.core = o.core :=
  drops.remnant.core_eq drops.consistent (fun _ mem => absurd mem List.not_mem_nil) ho hp

/-- What lives on is as it was, but for its count and what is noted on it. -/
theorem Drops.kept (drops : s.Drops dead s') (idle : s.memory.heap.FreeingIn fun _ => False)
    (ho : s.memory.heap.get? x = some o) (hp : s'.memory.heap.get? x = some p) :
    p = { o with strongCount := p.strongCount, color := p.color, gcRefs := p.gcRefs } := by
  have unmarked : o.freeing = false := by
    rw [← Bool.not_eq_true]
    exact idle x o ho
  have e := Object.eq_of_core_eq (drops.core_eq ho hp)
  rw [drops.consistent.settled hp, ← unmarked] at e
  exact e

/-- What lives on has lost the references to it that the dead held, and those that were loose. -/
theorem Drops.strongCount (drops : s.Drops dead s') (B : s.memory.heap.Balanced L)
    (ho : s.memory.heap.get? x = some o) (hp : s'.memory.heap.get? x = some p) :
    o.strongCount = p.strongCount + s.memory.heap.inEdgesFrom dead x + L x := by
  classical
  have root : p.rootCount = o.rootCount := congrArg (·.rootCount) (drops.core_eq ho hp)
  have split := drops.remnant.inEdges_eq drops.consistent
    (fun _ mem => absurd mem List.not_mem_nil) x
  have lost : ∑ r ∈ s.memory.heap.live with s.memory.heap.Doomed [] r,
      (s.memory.heap.refs r).count x = s.memory.heap.inEdgesFrom dead x := by
    rw [Heap.inEdgesFrom_eq_sum drops.nodup]
    refine Finset.sum_congr (Finset.ext fun r => ?_) fun _ _ => rfl
    rw [Finset.mem_filter, List.mem_toFinset, drops.mem_iff_doomed, Heap.mem_live]
    exact and_iff_right_of_imp Heap.Doomed.live
  have count := B.count ho
  have count' := drops.consistent.count hp
  omega

end Machine

/-- A reference that nobody holds is given back, however finalizers are run. -/
theorem Release.dropReference_drops {s : Machine} {x : ObjectId} (fin : Finalization)
    (B : s.memory.heap.Balanced (Loose.none.add [x]))
    (idle : s.memory.heap.FreeingIn fun _ => False)
    (unhooked : ∀ x o, s.memory.heap.get? x = some o → o.pendingFinalizer? = none) :
    ∃ s' dead, dropReference fin x s = .ok () s' ∧ s.Drops dead s' := by
  have A := At.sweeping B idle unhooked []
  obtain ⟨s', run, leads⟩ := dropReference_leads (fin.sound_zero _ _) A (Nat.le_refl 0)
  obtain ⟨dead, buries⟩ := Steps.buries leads.steps A.sound
  exact ⟨s', dead, run, buries, Steps.remnant leads.steps A.sound (.refl _ _),
    leads.there.consistent, leads.there.sound.balanced.isKeyed⟩

namespace Host

variable {hooks : Hooks} {self x : ObjectId} {c : Call} {s : Machine} {h : Heap}

theorem release_drops (hooks : Hooks) (C : s.memory.heap.Consistent) (K : s.memory.heap.Keyed)
    (unhooked : ∀ x o, s.memory.heap.get? x = some o → o.pendingFinalizer? = none)
    (given : s.memory.heap.giveUpRoot x = .ok h) :
    ∃ s' dead, release hooks x s = .ok () s' ∧ (s.withHeap h).Drops dead s' := by
  obtain ⟨s', dead, run, drops⟩ := Release.dropReference_drops (s := s.withHeap h)
    hooks.finalization ((C.balanced K).giveUpRoot given) (C.idle.giveUpRoot given)
    (Heap.unhooked_of_map (Heap.map_get?_giveUpRoot given fun _ _ => rfl) unhooked)
  exact ⟨s', dead, (release_of_ok given).trans run, drops⟩

theorem removeEdge_drops (hooks : Hooks) {y : ObjectId} (C : s.memory.heap.Consistent)
    (K : s.memory.heap.Keyed)
    (unhooked : ∀ x o, s.memory.heap.get? x = some o → o.pendingFinalizer? = none)
    (given : s.memory.heap.cut y x = .ok h) :
    ∃ s' dead, removeEdge hooks y x s = .ok () s' ∧ (s.withHeap h).Drops dead s' := by
  obtain ⟨s', dead, run, drops⟩ := Release.dropReference_drops (s := s.withHeap h)
    hooks.finalization ((C.balanced K).cut given) (C.idle.cut given)
    (Heap.unhooked_of_map (Heap.map_get?_cut given fun _ _ => rfl) unhooked)
  exact ⟨s', dead, (removeEdge_of_ok given).trans run, drops⟩

/-- Where the counting law holds, a call whose reference has been taken from its holder succeeds. -/
theorem call_drops (hooks : Hooks) (C : s.memory.heap.Consistent) (K : s.memory.heap.Keyed)
    (unhooked : ∀ x o, s.memory.heap.get? x = some o → o.pendingFinalizer? = none)
    (takes : c.Takes self s.memory.heap x h) :
    ∃ s' dead, call hooks self c s = .ok .done s' ∧ (s.withHeap h).Drops dead s' := by
  cases takes with
  | release given =>
    obtain ⟨s', dead, run, drops⟩ := release_drops hooks C K unhooked given
    exact ⟨s', dead, by simp only [call, Act.bind_apply, run, Act.pure_apply], drops⟩
  | removeEdge given =>
    obtain ⟨s', dead, run, drops⟩ := removeEdge_drops hooks C K unhooked given
    exact ⟨s', dead, by simp only [call, Act.bind_apply, run, Act.pure_apply], drops⟩

/-- A call that gives a reference back has taken it from its holder, or it is refused. -/
theorem takes_of_call {a : Answer} {s' : Machine} (gives : c.givesBack = true)
    (run : call hooks self c s = .ok a s') : ∃ x h, c.Takes self s.memory.heap x h := by
  cases c with
  | release id =>
    cases given : s.memory.heap.giveUpRoot (id.resolve self) with
    | ok h => exact ⟨_, h, .release given⟩
    | error e =>
      simp only [call, Act.bind_apply, release_of_error given] at run
      cases run
  | removeEdge source target =>
    cases given : s.memory.heap.cut (source.resolve self) (target.resolve self) with
    | ok h => exact ⟨_, h, .removeEdge given⟩
    | error e =>
      simp only [call, Act.bind_apply, removeEdge_of_error given] at run
      cases run
  | _ => cases gives

/-- Whenever a release or the removal of an edge succeeds and no finalizer is pending, the objects
freed are the least set that takes in each object which, without the reference given back, the host
does not hold and only members refer to. Each is freed once; every other object keeps all but its
count, which is lowered by the references that the freed ones held and by the one given back. -/
theorem call_frees_least (C : s.memory.heap.Consistent) (K : s.memory.heap.Keyed)
    (unhooked : ∀ x o, s.memory.heap.get? x = some o → o.pendingFinalizer? = none)
    {a : Answer} {s' : Machine} (gives : c.givesBack = true)
    (run : call hooks self c s = .ok a s') :
    ∃ x h ms, c.Takes self s.memory.heap x h ∧ s'.journal = ms ++ s.journal ∧
      (freedIn ms).Nodup ∧ IsLeast {F | h.Engulfs F} {y | y ∈ freedIn ms} ∧
      s'.memory.heap.freed = s.memory.heap.freed + (freedIn ms).length ∧
      s'.memory.heap.nextId = s.memory.heap.nextId ∧
      (∀ y, (∃ p, s'.memory.heap.get? y = some p) ↔
        (∃ o, h.get? y = some o) ∧ y ∉ freedIn ms) ∧
      ∀ y o p, h.get? y = some o → s'.memory.heap.get? y = some p →
        p = { o with strongCount := p.strongCount, color := p.color, gcRefs := p.gcRefs } ∧
        o.strongCount =
          p.strongCount + h.inEdgesFrom (freedIn ms) y + if x = y then 1 else 0 := by
  obtain ⟨x, h, takes⟩ := takes_of_call gives run
  obtain ⟨s₁, dead, ran, drops⟩ := call_drops hooks C K unhooked takes
  obtain ⟨B, idle⟩ := takes.loose C K
  rw [ran] at run
  cases run
  obtain ⟨ms, journal, rfl⟩ := drops.journal
  obtain ⟨nextId, freed⟩ := takes.numbers
  refine ⟨x, h, ms, takes, journal, drops.nodup, drops.isLeast, freed ▸ drops.freed,
    drops.remnant.nextId.trans nextId, drops.live_iff, fun y o p ho hp =>
      ⟨drops.kept idle ho hp, ?_⟩⟩
  have count := drops.strongCount B ho hp
  rw [Loose.add_apply, Loose.none_apply, Nat.zero_add, List.count_singleton, withHeap_heap] at count
  simpa only [beq_iff_eq] using count

/-- The first container refers to a second and a third one, these to a fourth one (the third one
twice), and the fourth one to a fifth one, which refers to itself. The host holds the first one. -/
def diamond : Machine :=
  (({} : Machine).performAll [
    .call (.allocateMany .container 5), .call (.addEdge (.id 1) (.id 2)),
    .call (.addEdge (.id 1) (.id 3)), .call (.addEdge (.id 2) (.id 4)),
    .call (.addEdge (.id 3) (.id 4)), .call (.addEdge (.id 3) (.id 4)),
    .call (.addEdge (.id 4) (.id 5)), .call (.addEdge (.id 5) (.id 5)),
    .call (.release (.id 2)), .call (.release (.id 3)), .call (.release (.id 4)),
    .call (.release (.id 5))]).2

theorem settled_diamond : diamond.memory.Settled :=
  (Attained.performAll (.start none rfl) (by rfl)).settled

theorem unhooked_diamond (x : ObjectId) (o : Object) (hx : diamond.memory.heap.get? x = some o) :
    o.pendingFinalizer? = none := by
  have all : diamond.memory.heap.toList.all (·.pendingFinalizer?.isNone) = true := by
    decide +kernel
  exact Option.isNone_iff_eq_none.mp (List.all_eq_true.mp all o (Heap.mem_toList.mpr ⟨x, hx⟩))

theorem call_frees_least_diamond :
    ∃ a s' x h ms, call ⟨⟨0, fun _ _ => pure ()⟩, none⟩ 0 (.release (.id 1)) diamond = .ok a s' ∧
      Call.Takes 0 diamond.memory.heap (.release (.id 1)) x h ∧
      s'.journal = ms ++ diamond.journal ∧ IsLeast {F | h.Engulfs F} {y | y ∈ freedIn ms} ∧
      freedIn s'.journal = [4, 2, 3, 1] ∧
      s'.memory.heap.toList.map (fun o => (o.id, o.strongCount)) = [(5, 1)] := by
  obtain ⟨a, s', run, facts⟩ := Act.exists_of_view? (show
    (call ⟨⟨0, fun _ _ => pure ()⟩, none⟩ 0 (.release (.id 1))).view? diamond (fun s' =>
      (freedIn s'.journal, s'.memory.heap.toList.map fun o => (o.id, o.strongCount))) =
      some ([4, 2, 3, 1], [(5, 1)]) by decide +kernel)
  obtain ⟨freed, left⟩ := Prod.mk.inj facts
  obtain ⟨x, h, ms, takes, journal, -, least, -⟩ := call_frees_least
    settled_diamond.consistent settled_diamond.balanced.isKeyed unhooked_diamond rfl run
  exact ⟨a, s', x, h, ms, run, takes, journal, least, freed, left⟩

end Host

end Reclaim
