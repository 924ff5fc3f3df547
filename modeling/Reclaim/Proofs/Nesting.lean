import Reclaim.Proofs.Operations

/-!
# Hooks within hooks

Hooks are scripts of operations that set off hooks, so they are shown to be sound by induction on
the budget: a finalizer that is entered uses up one of the finalizers that are left
(`Hooks.inPass_sound`, `Hooks.outside_sound`).

The budget of an operation from outside is large enough: every object that can be finalized in its
course has a pending finalizer at the start or is named by an instruction
(`Memory.names_length_le`). Between operations memory is settled, and operations of a host keep it
so (`Machine.perform_leads`, `Machine.perform_settled`).
-/

set_option autoImplicit false

namespace Reclaim

open Machine

variable {sc : Scope} {b : Bool} {n : Nat} {L : Loose} {Q : ObjectId → Prop} {s s' : Machine}
  {x : ObjectId} {op : Op}

/-- Zero is nobody's handle. -/
theorem Heap.Balanced.isSpent_zero {h : Heap} (B : h.Balanced L) : h.isSpent 0 = true := by
  exact isSpent_iff.mpr ⟨B.nextId_pos, fun o ho => absurd (B.keyed ho).2.1 (Nat.lt_irrefl 0)⟩

namespace Hooks

theorem inPass_sound (sc : Scope) (n : Nat) : (inPass n).Sound sc true n := by
  induction n with
  | zero =>
    exact ⟨rfl, ⟨Nat.le_refl 0, fun _ few => absurd few (Nat.not_lt_zero _)⟩, Bool.noConfusion,
      Bool.noConfusion⟩
  -- the finalizer that is entered is no longer one that is left, so the script has less budget
  | succ n ih =>
    refine ⟨rfl, ⟨Nat.le_refl (n + 1), fun {L Q s self script} A few spent hook => ?_⟩,
      Bool.noConfusion, Bool.noConfusion⟩
    exact Host.runScript_safe ih (fun _ => sc.steps hook) L Q s A (Nat.le_of_lt_succ few) spent

theorem ofPass_sound (sc : Scope) (passes : sc.passes) (may : sc.may .collect) (n : Nat) :
    (ofPass n).Sound sc n where
  passes := passes
  may := may
  finalization := (inPass_sound sc.calm n).finalization
  callback {L Q s _} A hn hook := Host.runScript_safe (inPass_sound sc n) (fun _ => sc.steps hook)
    L Q s A hn A.sound.balanced.isSpent_zero

theorem outside_sound (sc : Scope) (passes : sc.passes) (n : Nat) :
    (outside n).Sound sc false n := by
  induction n with
  | zero =>
    exact ⟨rfl, ⟨Nat.le_refl 0, fun _ few => absurd few (Nat.not_lt_zero _)⟩,
      fun _ => passes, fun _ may => ⟨_, rfl, ofPass_sound sc passes may 0⟩⟩
  | succ n ih =>
    refine ⟨rfl, ⟨Nat.le_refl (n + 1), fun {L Q s self script} A few spent hook => ?_⟩,
      fun _ => passes, fun _ may => ⟨_, rfl, ofPass_sound sc passes may (n + 1)⟩⟩
    exact Host.runScript_safe ih (fun _ => sc.steps hook) L Q s A (Nat.le_of_lt_succ few) spent

/-- The hooks of a pass that an operation from outside starts. -/
theorem outside_pass (n : Nat) : (outside n).pass? = some (ofPass n) := by
  cases n <;> rfl

theorem eq_ofPass {pass : PassHooks} (given : (outside n).pass? = some pass) : pass = ofPass n :=
  Option.some.inj (given.symm.trans (outside_pass n))

theorem within_sound (sc : Scope) (n : Nat) (passes : b = false → sc.passes) :
    (within b n).Sound sc b n := by
  cases b with
  | true => exact inPass_sound sc n
  | false => exact outside_sound sc (passes rfl) n

end Hooks

/-! ## The objects that can be finalized -/

mutual

/-- The handles that instructions in an operation give finalizers to, to any depth. -/
def Op.named : Op → List ObjectId
  | .setFinalizer .self script => Script.named script
  | .setFinalizer (.id x) script => x :: Script.named script
  | .addCallback _ script => Script.named script
  | .call _ => []
  | .ask _ => []
  | .raw _ => []

/-- The handles that instructions in a script give finalizers to, to any depth. -/
def Script.named : List (Step Op) → List ObjectId
  | [] => []
  | step :: rest => Step.named step ++ Script.named rest

/-- The handles that instructions in a step give finalizers to, to any depth. -/
def Step.named : Step Op → List ObjectId
  | ⟨op, _⟩ => Op.named op

end

mutual

theorem Op.named_length_le (op : Op) : (Op.named op).length ≤ Op.installs op := by
  match op with
  | .setFinalizer .self script =>
    have := Script.named_length_le script
    simp only [Op.named, Op.installs]
    omega
  | .setFinalizer (.id x) script =>
    have := Script.named_length_le script
    simp only [Op.named, Op.installs, List.length_cons]
    omega
  | .addCallback _ script => exact Script.named_length_le script
  | .call _ => exact Nat.zero_le _
  | .ask _ => exact Nat.zero_le _
  | .raw _ => exact Nat.zero_le _

/-- A script names no more objects than it has instructions that install finalizers. -/
theorem Script.named_length_le (script : List (Step Op)) :
    (Script.named script).length ≤ Script.installs script := by
  match script with
  | [] => exact Nat.le_refl 0
  | step :: rest =>
    have := Step.named_length_le step
    have := Script.named_length_le rest
    simp only [Script.named, Script.installs, List.length_append]
    omega

theorem Step.named_length_le (step : Step Op) :
    (Step.named step).length ≤ Step.installs step := by
  match step with
  | ⟨op, _⟩ => exact Op.named_length_le op

end

namespace Script

variable {script : Script} {step : Step Op}

theorem isHostOp_of_mem (host : isHostScript script = true) (mem : step ∈ script) :
    step.op.isHostOp = true := by
  obtain ⟨op, tolerant⟩ := step
  induction script with
  | nil => cases mem
  | cons first rest ih =>
    rw [isHostScript, Bool.and_eq_true] at host
    rcases List.mem_cons.mp mem with rfl | mem
    · exact host.1
    · exact ih host.2 mem

theorem named_of_mem (mem : step ∈ script) (hx : x ∈ step.op.named) : x ∈ named script := by
  obtain ⟨op, tolerant⟩ := step
  induction script with
  | nil => cases mem
  | cons first rest ih =>
    rw [named, List.mem_append]
    rcases List.mem_cons.mp mem with rfl | mem
    · exact .inl hx
    · exact .inr (ih mem)

end Script

/-- What a well-behaved host may do if its finalizers belong to certain objects only. -/
def Scope.ofNames (names : Finset ObjectId) : Scope where
  names := names
  hooks script := Script.isHostScript script = true ∧ ∀ x ∈ Script.named script, x ∈ names
  allows op := op.isHostOp = true ∧ ∀ x ∈ Op.named op, x ∈ names
  may _ := True
  saving := True
  passes := True
  sweeps _ := True
  host allowed := allowed.1
  deeds _ _ := trivial
  steps hook mem := ⟨Script.isHostOp_of_mem hook.1 mem, fun x hx =>
    hook.2 x (Script.named_of_mem mem hx)⟩
  finalizer {id script} allowed := by
    obtain ⟨host, names⟩ := allowed
    cases id with
    | self => exact ⟨⟨host, names⟩, fun x e => by cases e⟩
    | id x =>
      refine ⟨⟨host, fun y hy => names y (List.mem_cons_of_mem x hy)⟩, fun y e => ?_⟩
      cases e
      exact names x List.mem_cons_self
  callback allowed := allowed
  flags _ _ := trivial
  swept _ _ := trivial

namespace Memory

/-- The objects that can be finalized in the course of an operation: those whose finalizer is
pending, and those that instructions of the operation or of a stored script name. -/
def names (m : Memory) (op : Op) : List ObjectId :=
  (m.heap.toList.flatMap fun o => o.pendingFinalizer?.elim [] (o.id :: Script.named ·)) ++
    m.collector.elim [] (·.callbacks.flatMap (Script.named ·.script)) ++ op.named

/-- What happens in the course of an operation. -/
def scope (m : Memory) (op : Op) : Scope := .ofNames (m.names op).toFinset

theorem length_flatMap_le {α : Type} (f : α → List ObjectId) (g : α → Nat)
    (le : ∀ a, (f a).length ≤ g a) (xs : List α) (start : Nat) :
    start + (xs.flatMap f).length ≤ xs.foldl (· + g ·) start := by
  induction xs generalizing start with
  | nil => exact Nat.le_refl _
  | cons a xs ih =>
    have := ih (start + g a)
    have := le a
    rw [List.flatMap_cons, List.length_append, List.foldl_cons]
    omega

/-- The budget of an operation covers the finalizers that can be run in its course. -/
theorem names_length_le (m : Memory) (op : Op) :
    (m.names op).length ≤ m.finalizerBudget + op.installs := by
  -- the budget is counted over the same objects, callbacks and instructions as the names
  have pending := length_flatMap_le
    (fun o : Object => o.pendingFinalizer?.elim [] (o.id :: Script.named ·))
    (fun o : Object => o.pendingFinalizer?.elim 0 (1 + Script.installs ·)) (fun o => by
      cases o.pendingFinalizer? with
      | none => exact Nat.le_refl 0
      | some script =>
        have := Script.named_length_le script
        simp only [Option.elim_some, List.length_cons]
        omega) m.heap.toList 0
  have callbacks : (m.collector.elim [] (·.callbacks.flatMap (Script.named ·.script))).length ≤
      m.collector.elim 0 fun c => c.callbacks.foldl (· + Script.installs ·.script) 0 := by
    cases m.collector with
    | none => exact Nat.le_refl 0
    | some c =>
      have := length_flatMap_le (fun cb : Callback => Script.named cb.script)
        (fun cb : Callback => Script.installs cb.script)
        (fun cb => Script.named_length_le cb.script) c.callbacks 0
      rwa [Nat.zero_add] at this
  have instructions := Op.named_length_le op
  simp only [names, finalizerBudget, List.length_append]
  omega

theorem unspent_le_budget (m : Memory) (op : Op) :
    m.heap.unspent (m.scope op) ≤ m.finalizerBudget + op.installs :=
  (Finset.card_filter_le _ _).trans ((List.toFinset_card_le _).trans (m.names_length_le op))

end Memory

/-! ## Between operations -/

/-- What holds of memory between operations. -/
structure Memory.Settled (m : Memory) : Prop where
  balanced : m.heap.Balanced Loose.none
  freeing : m.heap.FreeingIn fun _ => False
  files : ∀ {c}, m.collector = some c → c.tracker.Files m.heap
  idle : m.isCollecting = false
  finalizers : ∀ {x o script}, m.heap.get? x = some o → o.pendingFinalizer? = some script →
    Script.isHostScript script = true
  callbacks : ∀ {c cb}, m.collector = some c → cb ∈ c.callbacks →
    Script.isHostScript cb.script = true

theorem Memory.Settled.consistent {m : Memory} (S : m.Settled) : m.heap.Consistent :=
  S.balanced.consistent S.freeing

theorem Heap.mem_toList {h : Heap} {o : Object} : o ∈ h.toList ↔ ∃ x, h.get? x = some o := by
  unfold toList
  rw [List.mem_map]
  constructor
  · rintro ⟨⟨x, p⟩, mem, rfl⟩
    exact ⟨x, Std.ExtTreeMap.mem_toList_iff_getElem?_eq_some.mp mem⟩
  · rintro ⟨x, hx⟩
    exact ⟨(x, o), Std.ExtTreeMap.mem_toList_iff_getElem?_eq_some.mpr hx, rfl⟩

/-- The hooks that memory has when an operation begins lie within the scope of that operation. -/
theorem Memory.Settled.within {m : Memory} (S : m.Settled) (op : Op) : m.Within (m.scope op) where
  pending {x o script} hx pending := by
    have mem (y : ObjectId) (hy : y ∈ o.id :: Script.named script) :
        y ∈ (m.names op).toFinset := by
      refine List.mem_toFinset.mpr (List.mem_append_left _ (List.mem_append_left _ ?_))
      refine List.mem_flatMap.mpr ⟨o, Heap.mem_toList.mpr ⟨x, hx⟩, ?_⟩
      rw [pending]
      exact hy
    refine ⟨?_, S.finalizers hx pending, fun y hy => mem y (List.mem_cons_of_mem o.id hy)⟩
    rw [← (S.balanced.keyed hx).1]
    exact mem o.id List.mem_cons_self
  callbacks _ {c cb} hc hcb := by
    refine ⟨S.callbacks hc hcb, fun x hx => List.mem_toFinset.mpr (List.mem_append_left _
      (List.mem_append_right _ ?_))⟩
    rw [hc]
    exact List.mem_flatMap.mpr ⟨cb, hcb, hx⟩
  saving _ _ _ _ _ := trivial

/-- Between operations of any scope that its hooks lie within, memory is at a settled moment. -/
theorem Memory.Settled.at (S : s.memory.Settled) (W : s.memory.Within sc) :
    At sc false Loose.none (fun _ => False) s :=
  ⟨⟨S.balanced, fun _ => S.files, W⟩, S.freeing, S.idle⟩

/-- An operation begins at a settled moment, in its own scope. -/
theorem Memory.Settled.begun (S : s.memory.Settled) (op : Op) :
    At (s.memory.scope op) false Loose.none (fun _ => False) s.forget :=
  Memory.Settled.at (s := s.forget) S (S.within op)

/-- In the scope of a host, memory is settled again when nothing is loose any more. -/
theorem Machine.At.settled {names : Finset ObjectId}
    (A : At (.ofNames names) false Loose.none (fun _ => False) s) : s.memory.Settled where
  balanced := A.sound.balanced
  freeing := A.freeing
  files := A.sound.files trivial
  idle := A.collecting
  finalizers hx pending := (A.sound.within.pending hx pending).2.1
  callbacks hc hcb := (A.sound.within.callbacks trivial hc hcb).1

namespace Machine

/-- The hooks that an operation from outside sets off. -/
def hooksFor (s : Machine) (op : Op) : Hooks :=
  .outside (s.memory.finalizerBudget + op.installs)

theorem perform_of_ok {a : Answer} (run : Host.perform (s.hooksFor op) 0 op s.forget = .ok a s') :
    s.perform op = ({ outcome := .ok a, moments := s'.journal.reverse, console := s'.console }, s')
    := by
  have within : runWithin op.installs (Host.perform · 0 op) s.forget = .ok a s' := run
  simp only [perform, within]

theorem perform_of_error {e : Fault}
    (run : Host.perform (s.hooksFor op) 0 op s.forget = .error e s') :
    s.perform op =
      ({ outcome := .error e, moments := s'.journal.reverse, console := s'.console }, s') := by
  have within : runWithin op.installs (Host.perform · 0 op) s.forget = .error e s' := run
  simp only [perform, within]

/-- What an operation leaves, whatever its outcome is. -/
theorem perform_of_attempt {outcome : Except Fault Answer}
    (run : Act.attempt (Host.perform (s.hooksFor op) 0 op) s.forget = .ok outcome s') :
    s.perform op = ({ outcome, moments := s'.journal.reverse, console := s'.console }, s') := by
  rw [Act.attempt_apply] at run
  cases performed : Host.perform (s.hooksFor op) 0 op s.forget with
  | ok a s₁ =>
    rw [performed] at run
    cases run
    exact perform_of_ok performed
  | error e s₁ =>
    rw [performed] at run
    cases run
    exact perform_of_error performed

/-- What holds of the machine whatever the outcome of an operation is holds when it is over. -/
theorem perform_of_always {P : Machine → Prop}
    (always : (Host.perform (s.hooksFor op) 0 op).Always s.forget P) : P (s.perform op).2 := by
  obtain ⟨outcome, s', run, holds⟩ := Act.attempt_of_always always
  rwa [perform_of_attempt run]

/-- An operation from outside runs in steps, if its hooks and those that memory has are within
the scope. -/
theorem perform_leads (S : s.memory.Settled) (W : s.memory.Within sc) (passes : sc.passes)
    (allowed : sc.allows op)
    (enough : s.memory.heap.unspent sc ≤ s.memory.finalizerBudget + op.installs) :
    Leads sc false Loose.none s.forget Loose.none (fun _ => False) (s.perform op).2 := by
  have A : At sc false Loose.none (fun _ => False) s.forget := Memory.Settled.at (s := s.forget) S W
  exact perform_of_always (Host.perform_safe (Hooks.outside_sound sc passes _) allowed _ _ _ A
    enough A.sound.balanced.isSpent_zero)

/-- An operation of a host runs in steps within its own scope. -/
theorem perform_leads_scope (S : s.memory.Settled) (host : op.isHostOp = true) :
    Leads (s.memory.scope op) false Loose.none s.forget Loose.none (fun _ => False)
      (s.perform op).2 := by
  refine perform_leads S (S.within op) trivial ⟨host, fun x hx => ?_⟩
    (s.memory.unspent_le_budget op)
  exact List.mem_toFinset.mpr (List.mem_append_right _ hx)

/-- An operation of a host leaves memory settled, whether it succeeds or not. -/
theorem perform_settled (S : s.memory.Settled) (host : op.isHostOp = true) :
    (s.perform op).2.memory.Settled :=
  (perform_leads_scope S host).there.settled

theorem perform_accounts (S : s.memory.Settled) (host : op.isHostOp = true)
    (accounts : s.memory.heap.Accounts) : (s.perform op).2.memory.heap.Accounts :=
  Steps.accounts (perform_leads_scope S host).steps
    (S.begun op).sound accounts

end Machine

end Reclaim
