import Reclaim.Proofs.Classification
import Reclaim.Proofs.Impartiality
import Reclaim.Proofs.Restraint

/-!
# How a collection ends

A collection that a host asks for is refused without any change while a pass is running, and if it
names no generation. Otherwise its pass runs to the end whatever its hooks do, and the collection
succeeds, unless the policy is then to raise a fault and the pass has resurrected something
(`Host.Completion`). The policy decides about nothing else: under another one the same collection
reclaims and resurrects the same objects and leaves the same memory, its policy apart
(`Machine.Attained.collections_end`).
-/

set_option autoImplicit false

namespace Reclaim

open Machine

variable {sc : Scope} {b : Bool} {n : Nat} {L : Loose} {Q : ObjectId → Prop} {s s' t : Machine}
  {c : Collector} {g : Generation} {op : Op}

/-- The operation sets the policy. -/
def Op.setsPolicy : Op → Bool
  | .call (.setPolicy _) => true
  | _ => false

/-- Hooks without such instructions leave the policy alone. -/
theorem Scope.steady_restrict (sc : Scope) : (sc.restrict (!·.setsPolicy)).Steady := by
  intro policy allowed
  have := (Op.everywhere_iff.mp allowed.2).1
  cases this

/-- The machine with another policy. -/
def Machine.withPolicy (s : Machine) (policy : ResurrectionPolicy) : Machine :=
  s.withMemory (s.memory.withPolicy policy)

theorem Generation.ofInt?_val (g : Generation) : Generation.ofInt? g.val = some g :=
  (ofInt?_eq_some_iff _ g).mpr rfl

theorem Generation.ofInt?_eq_none {i : Int} : Generation.ofInt? i = none ↔ ¬ (0 ≤ i ∧ i < 3) := by
  unfold Generation.ofInt?
  split <;> simp_all

namespace Host

/-- How a collection ends that has reclaimed a number of objects and resurrected some, by the policy
that is in force then. -/
def verdict (policy? : Option ResurrectionPolicy) (collected : Nat) (resurrected : List ObjectId)
    (s : Machine) : EStateM.Result Fault Machine Nat :=
  if policy? = some .raise ∧ resurrected ≠ [] then
    .error (.resurrectionDetected resurrected collected) s
  else .ok collected s

theorem verdict_cases (policy? : Option ResurrectionPolicy) (collected : Nat)
    (resurrected : List ObjectId) (s : Machine) :
    verdict policy? collected resurrected s = .ok collected s ∨
      verdict policy? collected resurrected s =
        .error (.resurrectionDetected resurrected collected) s := by
  unfold verdict
  split
  · exact .inr rfl
  · exact .inl rfl

theorem collect_eq_verdict {hooks : Hooks} {pass : PassHooks} {i : Int} {outcome : PassOutcome}
    (hc : s.memory.collector = some c) (idle : c.collecting = false)
    (hg : Generation.ofInt? i = some g) (given : hooks.pass? = some pass)
    (run : Pass.run pass g s = .ok outcome s') {c' : Collector}
    (hc' : s'.memory.collector = some c') :
    collect hooks i s =
      verdict s'.memory.policy? outcome.collected outcome.resurrected s' := by
  rw [collect_apply hc idle hg given run hc', verdict, Memory.policy?, hc']
  refine if_congr ?_ rfl rfl
  simp

/-- A collection whose pass runs to the end, kept as data. -/
structure Completion (hooks : Hooks) (pass : PassHooks) (g : Generation) (s : Machine) where
  trace : Pass.Trace pass g (s.mapCollector ({ · with collecting := true }))
  collected : trace.outcome.collected = trace.report.collected.length
  resurrected : trace.outcome.resurrected = trace.report.resurrected
  /-- Resurrected are those of the unreachable candidates that are live and supported when the
  finalizers have run. -/
  resurrected_iff : ∀ x, x ∈ trace.report.resurrected ↔ trace.finalized.memory.heap.Supported
    (trace.unreachable.filter (trace.finalized.memory.heap.contains ·)) x
  after : Machine
  after_eq : after = trace.ended.mapCollector ({ · with collecting := false })
  ends : collect hooks g.val s =
    verdict after.memory.policy? trace.report.collected.length trace.report.resurrected after

namespace Completion

variable {hooks : Hooks} {pass : PassHooks}

theorem run_eq (k : Completion hooks pass g s) :
    Pass.run pass g s = .ok k.trace.outcome k.after := by
  rw [k.after_eq]
  exact Pass.run_of_body k.trace.body_eq

end Completion

/-- How collections end on a machine whose collector is `c`, for all numbers that may be given. -/
structure Collections (hooks : Hooks) (t : Machine) (c : Collector) : Prop where
  reentrant : ∀ i t', collect hooks i t = .error .reentrantCollection t' ↔
    c.collecting = true ∧ t' = t
  invalid : ∀ i cause t', collect hooks i t = .error (.invalidConfiguration cause) t' ↔
    c.collecting = false ∧ ¬ (0 ≤ i ∧ i < 3) ∧ cause = .invalidGeneration i ∧ t' = t
  completes : c.collecting = false → ∃ pass, hooks.pass? = some pass ∧ ∀ g,
    Nonempty (Completion hooks pass g t)
  /-- Under another policy the pass does the same, and it is left as it was by hooks that do not
  set it. -/
  impartial : c.collecting = false → ∀ pass, hooks.pass? = some pass → ∀ g,
    ∀ (k : Completion hooks pass g t) policy, ∃ k' : Completion hooks pass g (t.withPolicy policy),
      k'.trace.report.resurrected = k.trace.report.resurrected ∧
      k'.trace.report.collected.length = k.trace.report.collected.length ∧
      (∃ policy', k'.after.memory = k.after.memory.withPolicy policy') ∧
      (t.memory.Restrains (!·.setsPolicy) →
        k.after.memory.policy? = some c.policy ∧ k'.after.memory.policy? = some policy)

/-- A collection runs a pass to its end at every sound moment at which none is running. -/
theorem completion (active : sc.Active) (passes : sc.passes) (A : At sc false L Q s)
    (hn : s.memory.heap.unspent sc ≤ n) (hc : s.memory.collector = some c) (g : Generation) :
    Nonempty (Completion (.outside n) (Hooks.ofPass n) g s) := by
  have P := Hooks.ofPass_sound sc passes (active _) n
  have began := A.mark hc true
  have marked : (s.mapCollector ({ · with collecting := true })).memory.collector =
      some { c with collecting := true } := congrArg (Option.map _) hc
  obtain ⟨k⟩ := Pass.body_course P began.there (Nat.le_trans began.unspent_le hn) marked g
  obtain ⟨c', hc'⟩ := k.leads.exists_collector marked
  have after : (k.ended.mapCollector ({ · with collecting := false })).memory.collector =
      some { c' with collecting := false } := congrArg (Option.map _) hc'
  refine ⟨⟨k.trace, k.collected, k.resurrected, fun x =>
    k.collection.resurrected_iff k.opens.there.calm (k.nodup_candidates P), _, rfl, ?_⟩⟩
  refine (collect_eq_verdict hc (A.collecting_eq hc) (Generation.ofInt?_val g)
    (Hooks.outside_pass n) (Pass.run_of_body k.body_eq) after).trans ?_
  rw [k.collected, k.resurrected]
  rfl

/-- In a scope whose hooks leave the policy alone a pass does so. -/
theorem policy?_of_run (active : sc.Active) (passes : sc.passes) (A : At sc false L Q s)
    (hn : s.memory.heap.unspent sc ≤ n) (hc : s.memory.collector = some c)
    (R : s.memory.Restrains (!·.setsPolicy)) {outcome : PassOutcome}
    (run : Pass.run (Hooks.ofPass n) g s = .ok outcome s') :
    s'.memory.policy? = some c.policy := by
  have P := Hooks.ofPass_sound (sc.restrict (!·.setsPolicy)) passes (active _) n
  obtain ⟨_, _, run', leads, -⟩ := Pass.run_leads (g := g) P (A.restrict R) hn hc
  rw [run] at run'
  cases run'
  rw [leads.conduct.follows.policy sc.steady_restrict, Memory.policy?, hc]
  rfl

/-- Another policy makes no difference to the hooks that are stored. -/
theorem restrains_withPolicy {p : Op → Bool} (R : s.memory.Restrains p)
    (policy : ResurrectionPolicy) : (s.withPolicy policy).memory.Restrains p where
  pending := R.pending
  callbacks {c' cb} hc' hcb := by
    obtain ⟨c, hc, rfl⟩ := Option.map_eq_some_iff.mp hc'
    exact R.callbacks hc hcb

theorem at_withPolicy (active : sc.Active) (A : At sc b L Q s)
    (hc : s.memory.collector = some c) (policy : ResurrectionPolicy) :
    At sc b L Q (s.withPolicy policy) := by
  have reconfigured : c.Reconfigured sc (c.withPolicy policy) :=
    ⟨rfl, rfl, rfl, rfl, rfl, rfl, fun _ => .inl, .inl⟩
  have same : s.withPolicy policy = s.mapCollector fun _ => c.withPolicy policy := by
    unfold Machine.withPolicy Memory.withPolicy withMemory mapCollector
    rw [hc]
    rfl
  rw [same]
  refine (A.reach (.configure (active _) hc reconfigured) A.freeing ?_).there
  show Option.any _ (Option.map _ s.memory.collector) = Option.any _ s.memory.collector
  rw [hc]
  rfl

/-- Under another policy a collection differs in its verdict only. -/
theorem completion_withPolicy (active : sc.Active) (passes : sc.passes) (A : At sc false L Q s)
    (hn : s.memory.heap.unspent sc ≤ n) (hc : s.memory.collector = some c)
    (k : Completion (.outside n) (Hooks.ofPass n) g s) (policy : ResurrectionPolicy) :
    ∃ k' : Completion (.outside n) (Hooks.ofPass n) g (s.withPolicy policy),
      k'.trace.report.resurrected = k.trace.report.resurrected ∧
      k'.trace.report.collected.length = k.trace.report.collected.length ∧
      (∃ policy', k'.after.memory = k.after.memory.withPolicy policy') ∧
      (s.memory.Restrains (!·.setsPolicy) →
        k.after.memory.policy? = some c.policy ∧ k'.after.memory.policy? = some policy) := by
  have A' := at_withPolicy active A hc policy
  have hc' : (s.withPolicy policy).memory.collector = some (c.withPolicy policy) :=
    congrArg (Option.map _) hc
  obtain ⟨k'⟩ := completion active passes A' hn hc' g
  -- the pass is impartial, so both have the same outcome
  have agree := Pass.run_impartial (Hooks.ofPass_impartial n) g s policy s.journal
  rw [k.run_eq, show s.recast policy s.journal = s.withPolicy policy from rfl, k'.run_eq] at agree
  have same : k'.trace.outcome = k.trace.outcome ∧
      ∃ policy', k'.after.memory = k.after.memory.withPolicy policy' := by
    generalize k'.after = t' at agree ⊢
    cases agree with
    | ok policy' journal same => exact ⟨same.symm, policy', rfl⟩
  refine ⟨k', ?_, ?_, same.2, fun R => ⟨policy?_of_run active passes A hn hc R k.run_eq,
    policy?_of_run active passes A' hn hc' (restrains_withPolicy R policy) k'.run_eq⟩⟩
  · rw [← k'.resurrected, ← k.resurrected, same.1]
  · rw [← k'.collected, ← k.collected, same.1]

/-- At every sound moment collections end as they should. -/
theorem collections_of_at (active : sc.Active) (passes : b = false → sc.passes)
    (A : At sc b L Q t) (hn : t.memory.heap.unspent sc ≤ n) (hc : t.memory.collector = some c) :
    Collections (.within b n) t c := by
  have collecting := A.collecting_eq hc
  cases b with
  | true =>
    have refused (i : Int) : collect (.within true n) i t = .error .reentrantCollection t :=
      collect_of_collecting hc collecting
    refine ⟨fun i t' => ?_, fun i cause t' => ?_, fun idle => ?_, fun idle => ?_⟩
    · rw [refused]
      simp [collecting, eq_comm]
    · rw [refused]
      simp [collecting]
    all_goals exact absurd collecting (by simp [idle])
  | false =>
    have completes := completion active (passes rfl) A hn hc
    have outcome (i : Int) : (¬ (0 ≤ i ∧ i < 3) ∧ collect (.within false n) i t =
          .error (.invalidConfiguration (.invalidGeneration i)) t) ∨
        (0 ≤ i ∧ i < 3) ∧ ∃ policy? collected resurrected t',
          collect (.within false n) i t = verdict policy? collected resurrected t' := by
      by_cases range : 0 ≤ i ∧ i < 3
      · obtain ⟨g, rfl⟩ : ∃ g : Generation, (g.val : Int) = i :=
          ⟨⟨i.toNat, by omega⟩, Int.toNat_of_nonneg range.1⟩
        obtain ⟨k⟩ := completes g
        exact .inr ⟨range, _, _, _, _, k.ends⟩
      · exact .inl ⟨range, collect_of_invalid hc collecting (Generation.ofInt?_eq_none.mpr range)⟩
    refine ⟨fun i t' => ?_, fun i cause t' => ?_, fun _ => ⟨_, Hooks.outside_pass n, completes⟩,
      fun _ pass given g k policy => ?_⟩
    · rcases outcome i with ⟨-, refused⟩ | ⟨-, policy?, collected, resurrected, t'', ends⟩
      · rw [refused]
        simp [collecting]
      · rw [ends]
        rcases verdict_cases policy? collected resurrected t'' with told | told <;>
          simp [told, collecting]
    · rcases outcome i with ⟨range, refused⟩ | ⟨range, policy?, collected, resurrected, t'', ends⟩
      · rw [refused]
        simp only [EStateM.Result.error.injEq, Fault.invalidConfiguration.injEq, collecting, range,
          not_false_eq_true, true_and, eq_comm]
      · rw [ends]
        rcases verdict_cases policy? collected resurrected t'' with told | told <;>
          simp [told, range]
    · obtain rfl := Hooks.eq_ofPass given
      exact completion_withPolicy active (passes rfl) A hn hc k policy

end Host

namespace Machine

/-- The outcomes of a manual collection. In every attained machine, and wherever a hook performs a
step in the course of an operation, a collection is refused exactly if a pass is running or, if none
is, the number names no generation; then nothing at all has changed. Otherwise its pass runs to the
end, whatever hooks throw; the collection fails exactly if the policy is then to raise a fault and
some objects have been resurrected, which that fault names. Under another policy the same collection
reclaims as many objects, resurrects the same ones and leaves the same memory, its policy apart,
which is still the one that it began with if the hooks do not set it. -/
theorem Attained.collections_end (run : Attained s) (host : op.isOutsideOp = true) :
    s.Throughout op fun hooks t =>
      ∀ c, t.memory.collector = some c → Host.Collections hooks t c :=
  run.throughout host fun active passes A hn _ => Host.collections_of_at active passes A hn

/-- Both policies, and a collection from within the finalizer that a collection has set off. -/
theorem collections_end_farewell :
    ((abandonedCycle farewell).Throughout (.call (.collect 2)) fun hooks t =>
      ∀ c, t.memory.collector = some c → Host.Collections hooks t c) ∧
      ((abandonedCycle farewell).perform (.call (.collect 2))).1.moments.filterMap (fun m =>
        match m.event with
        | .performed _ _ (.error fault) => some fault
        | _ => none) = [.reentrantCollection] ∧
      (match ((abandonedCycle rescue).perform (.call (.collect 2))).1.outcome with
        | .ok (.nat collected) => some collected
        | _ => none) = some 0 ∧
      (match (((abandonedCycle rescue).withPolicy .raise).perform
          (.call (.collect 2))).1.outcome with
        | .error fault => some fault
        | .ok _ => none) = some (.resurrectionDetected [1, 2] 0) :=
  ⟨(attained_abandonedCycle farewell rfl).collections_end rfl, by decide +kernel,
    by decide +kernel, by decide +kernel⟩

end Machine

end Reclaim
