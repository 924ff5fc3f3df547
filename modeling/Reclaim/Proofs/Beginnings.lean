import Reclaim.Proofs.Promotion

/-!
# Where passes begin

An operation starts a pass because it is asked to, or because it allocates an object while a pass is
wanted; and then passes over older generations may follow (`Host.Starts`). These are all the passes
that an operation starts itself: what the hooks of a pass would do at other moments makes no
difference to it (`Host.perform_congr`). They begin at moments to which the steps of the operation
lead, while no pass is running (`Machine.Attained.passes_begin`), so what is proved of passes that
begin at such moments holds of each of them; it also holds of the passes that the steps of hooks
start, at any depth (`Machine.Attained.passes_throughout`).
-/

set_option autoImplicit false

namespace Reclaim

open Machine

variable {sc : Scope} {b : Bool} {n : Nat} {L : Loose} {Q : ObjectId → Prop} {s t u v : Machine}
  {g i : Generation} {op : Op}

/-! ## Passes in a row -/

namespace Pass

variable {hooks hooks' : PassHooks} {rounds : Nat} {c : Collector}

/-- The passes that are run in a row when one over a generation is due at a machine: the first one
begins there, and each of the others where the one before it has ended, over the older generation
that was due then. One of them is over `g` and begins at `u`. -/
inductive InRow (hooks : PassHooks) (g : Generation) (u : Machine) :
    Nat → Generation → Machine → Prop where
  | first {rounds : Nat} : InRow hooks g u (rounds + 1) g u
  | later {rounds : Nat} {i older : Generation} {t t' : Machine} {outcome : PassOutcome} :
      run hooks i t = .ok outcome t' → outcome.due = some older →
      InRow hooks g u rounds older t' → InRow hooks g u (rounds + 1) i t

/-- Steps lead to where a pass in a row begins. -/
theorem InRow.reaches (row : InRow hooks g u rounds i t) (H : hooks.Sound sc n)
    (A : At sc false L Q t) (hn : t.memory.heap.unspent sc ≤ n)
    (hc : t.memory.collector = some c) : Reaches sc false L t L Q u := by
  induction row generalizing c with
  | first => exact A.here.toReaches
  | later ran _ _ ih =>
    obtain ⟨_, _, run, leads, -⟩ := run_leads H A hn hc
    rw [ran] at run
    cases run
    obtain ⟨c', hc'⟩ := leads.exists_collector hc
    exact leads.toReaches.trans (ih leads.there (Nat.le_trans leads.unspent_le hn) hc')

/-- Passes in a row are the same under hooks under which each of them is the same. -/
theorem runDue_congr
    (same : ∀ g u, InRow hooks g u rounds i t → run hooks' g u = run hooks g u) :
    runDue (run hooks') rounds i t = runDue (run hooks) rounds i t := by
  induction rounds generalizing i t with
  | zero => simp only [runDue]
  | succ rounds ih =>
    refine Act.bind_congr (same i t .first) fun outcome t' ran => ?_
    cases due : outcome.due with
    | none => rfl
    | some older => exact ih fun g u row => same g u (.later ran due row)

end Pass

/-! ## Passes that an operation starts -/

/-- The hooks with other ones for the passes that are started. -/
def Hooks.withPass (hooks : Hooks) (pass : PassHooks) : Hooks := { hooks with pass? := some pass }

namespace Host

variable {hooks : Hooks} {pass pass' : PassHooks} {kind : Kind} {typeName : String}
  {link : ObjectId → ObjectId → Act Unit} {last : ObjectId} {count : Nat}

/-- Several objects are allocated in a row, and after each of them `link` is done with the one
before it and the new one. One of them is allocated at `v`. -/
inductive InSequence (hooks : Hooks) (kind : Kind) (typeName : String)
    (link : ObjectId → ObjectId → Act Unit) (v : Machine) : ObjectId → Nat → Machine → Prop where
  | first {last : ObjectId} {count : Nat} :
      InSequence hooks kind typeName link v last (count + 1) v
  | later {last next : ObjectId} {count : Nat} {t t₁ t₂ : Machine} :
      allocate hooks kind typeName t = .ok next t₁ → link last next t₁ = .ok () t₂ →
      InSequence hooks kind typeName link v next count t₂ →
      InSequence hooks kind typeName link v last (count + 1) t

/-- An operation that begins at `t` allocates an object at `v`. -/
inductive Allocates (hooks : Hooks) (t : Machine) : Op → Kind → String → Machine → Prop where
  | single {kind : Kind} {typeName : String} :
      Allocates hooks t (.call (.allocate kind typeName)) kind typeName t
  | many {kind : Kind} {count : Nat} {v : Machine} :
      InSequence hooks kind plainTypeName (fun _ _ => pure ()) v 0 count t →
      Allocates hooks t (.call (.allocateMany kind count)) kind plainTypeName v
  | head {length : Nat} {close : Bool} :
      Allocates hooks t (.call (.chain length close)) .container Kind.container.name t
  | link {length : Nat} {close : Bool} {head : ObjectId} {t' v : Machine} :
      allocateLink hooks t = .ok head t' →
      InSequence hooks .container Kind.container.name (fasten hooks) v head (length - 1) t' →
      Allocates hooks t (.call (.chain length close)) .container Kind.container.name v

/-- Because an object is allocated at `v`, a pass over `g` begins at `u`. -/
structure StartsByAllocation (hooks : Hooks) (pass : PassHooks) (kind : Kind) (typeName : String)
    (v : Machine) (g : Generation) (u : Machine) : Prop where
  given : hooks.pass? = some pass
  wants : (v.memory.allocate kind typeName).2.wantsPass = true
  row : Pass.InRow pass g u 3 .youngest (v.withMemory (v.memory.allocate kind typeName).2)

/-- An operation that begins at `t` starts a pass over `g` at `u`. -/
inductive Starts (hooks : Hooks) (pass : PassHooks) (t : Machine) :
    Op → Generation → Machine → Prop where
  | asked {c : Collector} {i : Int} {g : Generation} : hooks.pass? = some pass →
      t.memory.collector = some c → c.collecting = false → Generation.ofInt? i = some g →
      Starts hooks pass t (.call (.collect i)) g t
  | automatic {op : Op} {kind : Kind} {typeName : String} {v : Machine} {g : Generation}
      {u : Machine} : Allocates hooks t op kind typeName v →
      StartsByAllocation hooks pass kind typeName v g u → Starts hooks pass t op g u

/-! ## An operation starts no other passes -/

theorem allocate_congr (given : hooks.pass? = some pass)
    (same : ∀ g u, StartsByAllocation hooks pass kind typeName v g u →
      Pass.run pass' g u = Pass.run pass g u) :
    allocate (hooks.withPass pass') kind typeName v = allocate hooks kind typeName v := by
  have passes : afterAllocation (hooks.withPass pass') (v.memory.allocate kind typeName).2
        (v.withMemory (v.memory.allocate kind typeName).2) =
      afterAllocation hooks (v.memory.allocate kind typeName).2
        (v.withMemory (v.memory.allocate kind typeName).2) := by
    unfold afterAllocation
    cases wants : (v.memory.allocate kind typeName).2.wantsPass with
    | false => simp only [Bool.false_eq_true, if_false]
    | true =>
      simp only [if_true, given]
      exact Pass.runDue_congr fun g u row => same g u ⟨given, wants, row⟩
  rw [allocate_apply, allocate_apply]
  exact Act.bind_congr passes fun _ _ _ => rfl

theorem allocateMany_congr (given : hooks.pass? = some pass)
    (same : ∀ v g u, InSequence hooks kind plainTypeName (fun _ _ => pure ()) v last count t →
      StartsByAllocation hooks pass kind plainTypeName v g u →
      Pass.run pass' g u = Pass.run pass g u) :
    allocateMany (hooks.withPass pass') kind last count t =
      allocateMany hooks kind last count t := by
  induction count generalizing last t with
  | zero => rfl
  | succ count ih =>
    exact Act.bind_congr (allocate_congr given fun g u => same t g u .first) fun next t' allocated =>
      ih fun v g u comes => same v g u (.later allocated rfl comes)

theorem extendChain_congr (given : hooks.pass? = some pass)
    (same : ∀ v g u,
      InSequence hooks .container Kind.container.name (fasten hooks) v last count t →
      StartsByAllocation hooks pass .container Kind.container.name v g u →
      Pass.run pass' g u = Pass.run pass g u) :
    extendChain (hooks.withPass pass') last count t = extendChain hooks last count t := by
  induction count generalizing last t with
  | zero => rfl
  | succ count ih =>
    refine Act.bind_congr (allocate_congr given fun g u => same t g u .first)
      fun next t₁ allocated => ?_
    -- fastening starts no pass
    have fastening : fasten (hooks.withPass pass') last next t₁ = fasten hooks last next t₁ := rfl
    refine Act.bind_congr fastening fun _ t₂ fastened => ?_
    exact ih fun v g u comes => same v g u (.later allocated fastened comes)

theorem chain_congr {length : Nat} {close : Bool} (given : hooks.pass? = some pass)
    (same : ∀ g u, Starts hooks pass t (.call (.chain length close)) g u →
      Pass.run pass' g u = Pass.run pass g u) :
    chain (hooks.withPass pass') length close t = chain hooks length close t := by
  refine Act.bind_congr (allocate_congr given fun g u starts => same g u (.automatic .head starts))
    fun head t' allocated => ?_
  refine Act.bind_congr (extendChain_congr given fun v g u comes starts =>
    same g u (.automatic (.link allocated comes) starts)) fun _ _ _ => rfl

theorem collect_congr {i : Int} (given : hooks.pass? = some pass)
    (same : ∀ g u, Starts hooks pass t (.call (.collect i)) g u →
      Pass.run pass' g u = Pass.run pass g u) :
    collect (hooks.withPass pass') i t = collect hooks i t := by
  cases hc : t.memory.collector with
  | none => rw [collect_of_none hc, collect_of_none hc]
  | some c =>
    cases collecting : c.collecting with
    | true => rw [collect_of_collecting hc collecting, collect_of_collecting hc collecting]
    | false =>
      cases hg : Generation.ofInt? i with
      | none => rw [collect_of_invalid hc collecting hg, collect_of_invalid hc collecting hg]
      | some g =>
        simp only [collect, Act.bind_apply, Act.collector_of_some hc, collecting,
          Bool.false_eq_true, if_false, hg, given, Hooks.withPass,
          same g t (.asked given hc collecting hg)]

/-- All passes that an operation starts are among those that `Starts` lists: it depends on the hooks
of passes only through what passes do at these moments. -/
theorem perform_congr (given : hooks.pass? = some pass)
    (same : ∀ g u, Starts hooks pass t op g u → Pass.run pass' g u = Pass.run pass g u)
    (self : ObjectId) :
    perform (hooks.withPass pass') self op t = perform hooks self op t := by
  cases op with
  | ask _ | setFinalizer _ _ | addCallback _ _ => rfl
  | raw r => cases r <;> rfl
  | call call =>
    cases call with
    | allocate kind typeName =>
      exact Act.bind_congr (allocate_congr given fun g u starts =>
        same g u (.automatic .single starts)) fun _ _ _ => rfl
    | allocateMany kind count =>
      exact Act.bind_congr (allocateMany_congr given fun v g u comes starts =>
        same g u (.automatic (.many comes) starts)) fun _ _ _ => rfl
    | chain length close => exact Act.bind_congr (chain_congr given same) fun _ _ _ => rfl
    | collect i => exact Act.bind_congr (collect_congr given same) fun _ _ _ => rfl
    | _ => rfl

/-! ## The moments at which passes begin -/

/-- Steps lead to where an object is allocated. -/
theorem InSequence.reaches (comes : InSequence hooks kind typeName link v last count t)
    (H : hooks.Sound sc b n) (active : sc.Active)
    (linked : ∀ last next, Act.Safe sc b n 0 (link last next)) (A : At sc b L Q t)
    (hn : t.memory.heap.unspent sc ≤ n) : Reaches sc b L t L Q v := by
  induction comes with
  | first => exact A.here.toReaches
  | @later last next _ t t₁ t₂ allocated joined _ ih =>
    obtain ⟨_, run, leads⟩ := allocate_leads H (fun _ => active _) A hn kind typeName
    rw [allocated] at run
    cases run
    have hn₁ := Nat.le_trans leads.unspent_le hn
    have always := linked last t.memory.heap.nextId L Q t₁ leads.there hn₁
      leads.there.sound.balanced.isSpent_zero
    rw [Act.Always, joined] at always
    exact leads.toReaches.trans (always.toReaches.trans
      (ih always.there (Nat.le_trans always.unspent_le hn₁)))

theorem Allocates.reaches (allocates : Allocates hooks t op kind typeName v)
    (H : hooks.Sound sc b n) (active : sc.Active) (A : At sc b L Q t)
    (hn : t.memory.heap.unspent sc ≤ n) : Reaches sc b L t L Q v := by
  cases allocates with
  | single | head => exact A.here.toReaches
  | many comes => exact comes.reaches H active (fun _ _ => (Act.still_pure ()).safe) A hn
  | link allocated comes =>
    obtain ⟨_, run, leads⟩ : ∃ s', allocateLink hooks t = .ok t.memory.heap.nextId s' ∧
        Leads sc b L t L Q s' := allocate_leads H (fun _ => active _) A hn _ _
    rw [allocated] at run
    cases run
    exact leads.toReaches.trans (comes.reaches H active (fasten_safe H fun _ => active _)
      leads.there (Nat.le_trans leads.unspent_le hn))

/-- At a sound moment an operation starts passes only if none is running, and steps lead to where
they begin. -/
theorem Starts.reaches (starts : Starts hooks pass t op g u) (H : hooks.Sound sc b n)
    (active : sc.Active) (A : At sc b L Q t) (hn : t.memory.heap.unspent sc ≤ n) :
    b = false ∧ pass = Hooks.ofPass n ∧ Reaches sc false L t L Q u ∧
      ∃ c, u.memory.collector = some c := by
  cases starts with
  | asked given hc idle _ =>
    obtain rfl : b = false := (A.collecting_eq hc).symm.trans idle
    rw [H.eq_within] at given
    exact ⟨rfl, Hooks.eq_ofPass given, A.here.toReaches, _, hc⟩
  | @automatic _ kind typeName v _ _ allocates automatic =>
    have allocating := allocates.reaches H active A hn
    have inserted := insert_leads (active _) allocating.there kind typeName
    obtain ⟨rfl, c, hc⟩ := inserted.there.idle_of_wantsPass automatic.wants
    have given := automatic.given
    rw [H.eq_within] at given
    obtain rfl := Hooks.eq_ofPass given
    have begun := allocating.trans inserted.toReaches
    have first := automatic.row.reaches (Hooks.ofPass_sound sc (H.passes rfl) (active _) n)
      begun.there (Nat.le_trans begun.unspent_le hn) hc
    exact ⟨rfl, rfl, begun.trans first, first.exists_collector hc⟩

end Host

/-- What classification and promotion say of a pass over `g` that begins at `u`. It runs to its end;
unless it keeps garbage, its candidates are classified; and they are promoted when it is entered
into the books. -/
def PassHooks.Orderly (hooks : PassHooks) (g : Generation) (u : Machine) : Prop :=
  ∃ (c : Collector) (k : Pass.Trace hooks g (u.mapCollector ({ · with collecting := true })))
    (due : Option Generation) (booked : Machine) (c' : Collector),
    u.memory.collector = some c ∧
    Pass.run hooks g u = .ok k.outcome (k.ended.mapCollector ({ · with collecting := false })) ∧
    (k.collector.debug.has .saveAll = false →
      Cycles.Classification
        (Cycles.members k.opened.memory.heap (k.collector.tracker.candidates g)) k.reachable
        k.unreachable k.report k.finalized.memory.heap k.collected.memory.heap ∧
      (∀ x ∈ k.report.collected, k.ended.memory.heap.get? x = none) ∧
      k.outcome.collected = k.report.collected.length ∧
      k.outcome.resurrected = k.report.resurrected) ∧
    Pass.book g (Pass.options k.collector.debug) k.report k.collected = .ok due booked ∧
    booked.memory.collector = some c' ∧
    Pass.Promoted g c.tracker.counts k.collector k.opened.memory.heap c' booked.memory.heap

namespace Machine

variable {pass : PassHooks}

/-- The passes that an operation on an attained machine starts begin in its course, while no pass is
running. They are run under its budget, which the finalizers that are left do not exceed. -/
theorem Attained.passes_begin (run : Attained s)
    (starts : Host.Starts (s.hooksFor op) pass s.forget op g u) :
    ∃ n c, pass = Hooks.ofPass n ∧
      Steps (s.memory.scope op) (Loose.none, s.forget) (Loose.none, u) ∧
      u.memory.collector = some c ∧ c.collecting = false ∧
      u.memory.heap.unspent (s.memory.scope op) ≤ n := by
  have enough := s.memory.unspent_le_budget op
  obtain ⟨-, rfl, reaches, c, hc⟩ := starts.reaches
    (Hooks.outside_sound (s.memory.scope op) trivial _) (fun _ => trivial) (run.begun op) enough
  exact ⟨_, c, rfl, reaches.steps, hc, reaches.there.collecting_eq hc,
    Nat.le_trans reaches.unspent_le enough⟩

/-- The passes that an operation starts are orderly, and so are the passes that its hooks start
whatever operation they perform. -/
theorem Attained.passes_throughout (run : Attained s) (host : op.isOutsideOp = true) :
    s.Throughout op fun hooks t =>
      ∀ op' pass g u, Host.Starts hooks pass t op' g u → pass.Orderly g u := by
  refine run.throughout host fun {sc b n L Q t} active passes A hn op' pass g u starts => ?_
  obtain ⟨rfl, rfl, reaches, c, hc⟩ := starts.reaches (Hooks.within_sound sc n passes) active A hn
  have P := Hooks.ofPass_sound sc (passes rfl) (active _) n
  obtain ⟨k, due, booked, c', ran, books, hc', promoted⟩ := Pass.run_course P
    (reaches.there.mark hc true).there (Nat.le_trans reaches.unspent_le hn) hc g
  exact ⟨c, k.trace, due, booked, c', hc, ran, k.classified P, books, hc', promoted⟩

end Machine

end Reclaim
