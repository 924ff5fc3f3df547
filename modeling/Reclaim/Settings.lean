import Reclaim.Fault

/-!
# Settings of a collector

Generations, thresholds, debug flags and the resurrection policy. Thresholds are positive by type:
`Thresholds.ofCounts` names the first zero among the counts it refuses.
-/

namespace Reclaim

/-- Age of a container: it is allocated in generation 0 and grows older with each pass that it
survives. -/
abbrev Generation := Fin 3

namespace Generation

/-- The generation that containers are allocated in. -/
def youngest : Generation := 0

/-- The generation that containers stay in once they have reached it. -/
def oldest : Generation := 2

/-- The generation that survivors of a pass over `g` are moved to. -/
def next : Generation → Generation
  | 0 => 1
  | 1 => 2
  | 2 => 2

/-- The generation that is due after enough passes over `g`, if any is older. -/
def older? : Generation → Option Generation
  | 0 => some 1
  | 1 => some 2
  | 2 => none

/-- The generation with a given number. -/
def ofInt? (g : Int) : Option Generation :=
  if h : 0 ≤ g ∧ g < 3 then some ⟨g.toNat, by omega⟩ else none

/-- The generations that a pass over `g` covers, youngest first. -/
def upTo (g : Generation) : List Generation :=
  (List.finRange 3).filter (· ≤ g)

end Generation

/-- One value for each generation, youngest first. -/
abbrev PerGeneration (α : Type) := Vector α 3

namespace PerGeneration

/-- Changes the value of one generation. -/
def update (v : PerGeneration α) (g : Generation) (f : α → α) : PerGeneration α :=
  v.set g.val (f (v.get g)) g.isLt

/-- The sum of a number over all generations. -/
def total (v : PerGeneration α) (f : α → Nat) : Nat :=
  f (v.get 0) + f (v.get 1) + f (v.get 2)

theorem eta {α : Type} (v : PerGeneration α) : v = #v[v.get 0, v.get 1, v.get 2] := by
  match v with
  | ⟨⟨[_, _, _]⟩, _⟩ => rfl

end PerGeneration

/-- One number for each generation at which a pass over it becomes due. -/
structure Thresholds where
  counts : PerGeneration Nat
  positive : ∀ g : Generation, 0 < counts.get g

namespace Thresholds

/-- Accepts the counts if none is zero; otherwise the first zero is at fault. -/
def ofCounts (counts : PerGeneration Nat) : Except Fault Thresholds :=
  match h : (List.finRange 3).find? (fun g : Generation => counts.get g == 0) with
  | some g => .error (.invalidConfiguration (.zeroThreshold g))
  | none => .ok ⟨counts, fun g => by
      have := List.find?_eq_none.mp h g (List.mem_finRange g)
      simp only [beq_iff_eq] at this
      omega⟩

/-- The threshold of a generation. -/
def get (t : Thresholds) (g : Generation) : Nat := t.counts.get g

theorem eq_of_counts {t t' : Thresholds} (same : t.counts = t'.counts) : t = t' := by
  cases t
  cases same
  rfl

/-- Counts that are accepted as thresholds become the thresholds. -/
theorem counts_of_ofCounts {counts : PerGeneration Nat} {thresholds : Thresholds}
    (accepted : ofCounts counts = .ok thresholds) : thresholds.counts = counts := by
  unfold ofCounts at accepted
  split at accepted <;> cases accepted
  rfl

/-- The counts of thresholds are accepted. -/
theorem ofCounts_counts (t : Thresholds) : ofCounts t.counts = .ok t := by
  unfold ofCounts
  split
  · next g zero =>
    have positive := t.positive g
    have none := List.find?_some zero
    simp only [beq_iff_eq] at none
    omega
  · rfl

/-- A count that is zero is at fault if the counts are refused. -/
theorem exists_of_ofCounts {counts : PerGeneration Nat} {fault : Fault}
    (refused : ofCounts counts = .error fault) :
    ∃ g : Generation, counts.get g = 0 ∧ fault = .invalidConfiguration (.zeroThreshold g) := by
  unfold ofCounts at refused
  split at refused
  · next g zero =>
    cases refused
    have none := List.find?_some zero
    simp only [beq_iff_eq] at none
    exact ⟨g, none, rfl⟩
  · cases refused

end Thresholds

/-- A pass over the youngest generation every 700 net allocations, over the middle one every tenth
of these, over the oldest every tenth of those. -/
def defaultThresholds : PerGeneration Nat := #v[700, 10, 10]

/-- What a collector reports and keeps, as a mask of bits. -/
structure DebugFlags where
  mask : UInt32
  deriving DecidableEq

namespace DebugFlags

/-- No flag is set. -/
def none : DebugFlags := ⟨0⟩

/-- A summary of every pass. -/
def stats : DebugFlags := ⟨1⟩

/-- Every reclaimed container. -/
def collectable : DebugFlags := ⟨2⟩

/-- Every container that a finalizer kept alive. -/
def uncollectable : DebugFlags := ⟨4⟩

/-- Unreachable containers are kept in a list and not freed. -/
def saveAll : DebugFlags := ⟨32⟩

/-- The flags for hunting leaks. -/
def leak : DebugFlags := ⟨collectable.mask ||| uncollectable.mask ||| saveAll.mask⟩

/-- The flags set in either mask. -/
def union (f g : DebugFlags) : DebugFlags := ⟨f.mask ||| g.mask⟩

/-- Some flag of `g` is set in `f`. -/
def has (f g : DebugFlags) : Bool := f.mask &&& g.mask != 0

end DebugFlags

/-- What happens once a pass has found that finalizers made objects reachable again. The objects
stay alive either way. -/
inductive ResurrectionPolicy where
  /-- The objects are left for a later pass. -/
  | defer
  /-- The caller of the collection is told by a fault as well. -/
  | raise
  deriving DecidableEq

/-- What a collector starts with. The thresholds are checked when it is attached. -/
structure Settings where
  thresholds : PerGeneration Nat := defaultThresholds
  enabled : Bool := true
  debug : DebugFlags := .none
  policy : ResurrectionPolicy := .defer

end Reclaim
