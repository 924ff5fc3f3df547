import Mathlib.Data.Fintype.Pigeonhole
import Mathlib.Dynamics.PeriodicPts.Defs
import Mathlib.Logic.Relation
import Reclaim.Proofs.CountingLaw
import Reclaim.Proofs.Shedding

/-!
# Counting leaves cyclic garbage only

Where counts agree with references, an object out of the host's reach is kept alive by another
object out of reach (`Heap.Consistent.exists_holder`). Following the holders backwards through a
finite heap must come round, so every such object hangs on a cycle of containers, all of them out of
reach (`Heap.Consistent.exists_garbageCycle`). Counts agree in every machine that a host attains,
whatever finalizers and callbacks did in the cascades before
(`Machine.Attained.leaves_only_cyclic_garbage`); if references run in no cycle, what lives is what
the host reaches.
-/

set_option autoImplicit false

namespace Reclaim

open Relation

section Cycles

variable {α : Type*} {r : α → α → Prop} {c : Cycle α}

/-- Read backwards, a cycle is a chain for the relation read backwards. -/
theorem chain_reverse (chain : c.Chain fun a b => r b a) : c.reverse.Chain r := by
  induction c with
  | nil => trivial
  | cons a l =>
    rw [Cycle.reverse_coe, List.reverse_cons, ← Cycle.coe_cons_eq_coe_append,
      Cycle.chain_coe_cons]
    rw [Cycle.chain_coe_cons] at chain
    have turned : a :: (l.reverse ++ [a]) = (a :: (l ++ [a])).reverse := by simp
    rw [turned]
    exact List.isChain_reverse.mpr chain

/-- From each place on a cycle the way leads back to it. -/
theorem transGen_self_of_chain {x : α} (chain : c.Chain r) (mem : x ∈ c) : TransGen r x x :=
  Cycle.chain_iff_pairwise.mp (chain.imp fun _ _ => TransGen.single) x mem x mem

/-- Whoever follows a function through a finite type comes to a point that comes back to itself. -/
theorem exists_iterate_mem_periodicPts [Finite α] (f : α → α) (x : α) :
    ∃ n, f^[n] x ∈ Function.periodicPts f := by
  obtain ⟨m, n, ne, same⟩ := Finite.exists_ne_map_eq_of_infinite fun n : Nat => f^[n] x
  -- the earlier of the two visits to one point is where the way starts to come round
  wlog earlier : m < n generalizing m n
  · exact this n m ne.symm same.symm (by omega)
  refine ⟨m, Function.mk_mem_periodicPts (Nat.sub_pos_of_lt earlier) ?_⟩
  show f^[n - m] (f^[m] x) = f^[m] x
  rw [← Function.iterate_add_apply, Nat.sub_add_cancel earlier.le]
  exact same.symm

end Cycles

namespace Heap

variable {h : Heap} {x y : ObjectId} {o : Object}

/-- One object holds a reference to the other. -/
def Refers (h : Heap) (x y : ObjectId) : Prop := y ∈ h.refs x

/-- A cycle of containers, each with a reference to the next one, out of the host's reach. -/
structure GarbageCycle (h : Heap) (c : Cycle ObjectId) : Prop where
  nonempty : ∃ x, x ∈ c
  chain : c.Chain h.Refers
  containers : ∀ x ∈ c, ∃ o, h.get? x = some o ∧ o.kind = .container
  unreachable : ∀ x ∈ c, ¬ h.Reachable x

theorem GarbageCycle.returns {c : Cycle ObjectId} (G : h.GarbageCycle c) :
    ∃ x, TransGen h.Refers x x := by
  obtain ⟨x, mem⟩ := G.nonempty
  exact ⟨x, transGen_self_of_chain G.chain mem⟩

theorem Consistent.mem_live_of_reachable (C : h.Consistent) (reach : h.Reachable x) :
    x ∈ h.live :=
  mem_live.mpr (live_of_reachable C.closed reach)

/-- The live objects that the host does not reach. -/
def Garbage (h : Heap) (x : ObjectId) : Prop := x ∈ h.live ∧ ¬ h.Reachable x

/-- What lives out of reach is counted for a reference that another object out of reach holds. -/
theorem Consistent.exists_holder (C : h.Consistent) (garbage : h.Garbage x) :
    ∃ r, h.Garbage r ∧ h.Refers r x := by
  obtain ⟨live, unreachable⟩ := garbage
  obtain ⟨o, ho⟩ := mem_live.mp live
  obtain ⟨r, hr⟩ := (C.rooted_or_held ho).resolve_left fun rooted => unreachable (.root rooted)
  obtain ⟨p, hp, -⟩ := isSome_of_mem_refs hr
  exact ⟨r, ⟨mem_live.mpr ⟨p, hp⟩, fun reach => unreachable (reach.step hr)⟩, hr⟩

instance : Finite {x // h.Garbage x} :=
  Finite.of_injective _
    (Subtype.impEmbedding h.Garbage (· ∈ h.live) fun _ garbage => garbage.1).injective

/-- Whatever lives out of reach hangs on a cycle out of reach. -/
theorem Consistent.exists_garbageCycle (C : h.Consistent) (garbage : h.Garbage x) :
    ∃ c, h.GarbageCycle c ∧ ∃ y ∈ c, ReflTransGen h.Refers y x := by
  -- choose a holder for every object out of reach and go from holder to holder
  choose holder held using fun y : {y // h.Garbage y} =>
    (C.exists_holder y.2).imp fun _ r => r
  let back : {y // h.Garbage y} → {y // h.Garbage y} := fun y => ⟨holder y, (held y).1⟩
  have back_refers (y : {y // h.Garbage y}) : h.Refers (back y) y := (held y).2
  have leads (n : Nat) (y : {y // h.Garbage y}) : ReflTransGen h.Refers (back^[n] y) y := by
    induction n with
    | zero => exact .refl
    | succ n ih =>
      rw [Function.iterate_succ_apply']
      exact ih.head (back_refers _)
  obtain ⟨n, periodic⟩ := exists_iterate_mem_periodicPts back ⟨x, garbage⟩
  -- the way back has come round; read forwards it is the cycle
  let way := Function.periodicOrbit back (back^[n] ⟨x, garbage⟩)
  have way_chain : (way.map Subtype.val).Chain fun a b => h.Refers b a := by
    rw [Cycle.chain_map]
    refine (Function.periodicOrbit_chain' _ periodic).mpr fun k => ?_
    rw [Function.iterate_succ_apply']
    exact back_refers _
  have of_mem {y : ObjectId} (mem : y ∈ (way.map Subtype.val).reverse) :
      ∃ z ∈ way, z.val = y := Cycle.mem_map.mp (Cycle.mem_reverse_iff.mp mem)
  have chain : (way.map Subtype.val).reverse.Chain h.Refers := chain_reverse way_chain
  have mem : (back^[n] ⟨x, garbage⟩).val ∈ (way.map Subtype.val).reverse :=
    Cycle.mem_reverse_iff.mpr
      (Cycle.mem_map.mpr ⟨_, Function.self_mem_periodicOrbit periodic, rfl⟩)
  refine ⟨_, ⟨⟨_, mem⟩, chain, ?containers, ?unreachable⟩, _, mem, leads n _⟩
  case containers =>
    -- each member of a cycle holds a reference, which no atom does
    intro y hy
    obtain ⟨z, hz, -⟩ := TransGen.head'_iff.mp (transGen_self_of_chain chain hy)
    exact C.container_of_mem_refs hz
  case unreachable =>
    intro y hy
    obtain ⟨z, -, rfl⟩ := of_mem hy
    exact z.2.2

/-- Where references run in no cycle, what lives is what the host reaches. -/
theorem Consistent.live_iff_reachable (C : h.Consistent) (acyclic : ∀ x, ¬ TransGen h.Refers x x)
    (x : ObjectId) : x ∈ h.live ↔ h.Reachable x := by
  refine ⟨fun live => ?_, C.mem_live_of_reachable⟩
  by_contra unreachable
  obtain ⟨c, G, -⟩ := C.exists_garbageCycle ⟨live, unreachable⟩
  obtain ⟨y, returns⟩ := G.returns
  exact acyclic y returns

theorem mem_roots : x ∈ h.roots ↔ h.Rooted x := by
  rw [roots, List.mem_map]
  constructor
  · rintro ⟨⟨y, o⟩, mem, rfl⟩
    obtain ⟨mem, pos⟩ := List.mem_filter.mp mem
    exact ⟨o, Std.ExtTreeMap.mem_toList_iff_getElem?_eq_some.mp mem, of_decide_eq_true pos⟩
  · rintro ⟨o, ho, pos⟩
    have mem : (x, o) ∈ h.objects.toList :=
      Std.ExtTreeMap.mem_toList_iff_getElem?_eq_some.mpr ho
    exact ⟨(x, o), List.mem_filter.mpr ⟨mem, decide_eq_true pos⟩, rfl⟩

theorem not_reachable_of_roots_eq_nil (none : h.roots = []) (x : ObjectId) :
    ¬ h.Reachable x := by
  intro reach
  induction reach with
  | root rooted =>
    have mem := mem_roots.mpr rooted
    rw [none] at mem
    cases mem
  | step _ _ ih => exact ih

end Heap

namespace Machine

variable {s : Machine}

/-- Counting leaves only cyclic garbage. In every attained machine the objects that the host holds
and all that is reachable from them live; whatever else lives is reachable from a cycle of live
containers out of the host's reach; so if references run in no cycle, the live objects are the
reachable ones. -/
theorem Attained.leaves_only_cyclic_garbage (run : Attained s) :
    (∀ x, s.memory.heap.Reachable x → x ∈ s.memory.heap.live) ∧
    (∀ x, x ∈ s.memory.heap.live → ¬ s.memory.heap.Reachable x →
      ∃ c, s.memory.heap.GarbageCycle c ∧ ∃ y ∈ c, ReflTransGen s.memory.heap.Refers y x) ∧
    ((∀ x, ¬ TransGen s.memory.heap.Refers x x) →
      ∀ x, x ∈ s.memory.heap.live ↔ s.memory.heap.Reachable x) :=
  have C := run.settled.consistent
  ⟨fun _ => C.mem_live_of_reachable, fun _ live unreachable =>
    C.exists_garbageCycle ⟨live, unreachable⟩, C.live_iff_reachable⟩

/-- A container that the host holds and one that only the first one refers to, beside a cycle that
the host has let go of. -/
def ownedPair (finalizer : Script) : Machine :=
  ((abandonedCycle finalizer).performAll [.call (.collect 2),
    .call (.allocate .container "node"), .call (.allocate .container "node"),
    .call (.addEdge (.id 3) (.id 4)), .call (.release (.id 4))]).2

theorem leaves_only_cyclic_garbage_farewell :
    (∃ c, (abandonedCycle farewell).memory.heap.GarbageCycle c ∧
      ∃ y ∈ c, ReflTransGen (abandonedCycle farewell).memory.heap.Refers y 1) ∧
    (ownedPair farewell).memory.heap.toList.map (·.id) = [3, 4] ∧
    ∀ x, x ∈ (ownedPair farewell).memory.heap.live ↔
      (ownedPair farewell).memory.heap.Reachable x := by
  have cyclic := attained_abandonedCycle farewell rfl
  have pair : Attained (ownedPair farewell) := cyclic.performAll rfl
  refine ⟨?cycle, by decide +kernel, ?owned⟩
  case cycle =>
    refine cyclic.leaves_only_cyclic_garbage.2.1 1 ?_ ?_
    · exact Heap.mem_live.mpr (Option.isSome_iff_exists.mp (by decide +kernel))
    · exact Heap.not_reachable_of_roots_eq_nil (by decide +kernel) 1
  case owned =>
    -- references run from smaller handles to greater ones
    have ascend {x y : ObjectId} (hy : (ownedPair farewell).memory.heap.Refers x y) : x < y := by
      obtain ⟨o, ho, mem⟩ := Heap.isSome_of_mem_refs hy
      have all : ∀ p ∈ (ownedPair farewell).memory.heap.objects.toList, ∀ y ∈ p.2.references,
          p.1 < y := by decide +kernel
      exact all (x, o) (Std.ExtTreeMap.mem_toList_iff_getElem?_eq_some.mpr ho) y mem
    have climb {x y : ObjectId}
        (way : TransGen (ownedPair farewell).memory.heap.Refers x y) : x < y := by
      induction way with
      | single hy => exact ascend hy
      | tail _ hy ih => exact ih.trans (ascend hy)
    exact pair.leaves_only_cyclic_garbage.2.2 fun x returns => lt_irrefl x (climb returns)

end Machine

end Reclaim
