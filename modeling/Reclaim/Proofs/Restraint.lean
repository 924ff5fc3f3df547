import Reclaim.Proofs.Runs

/-!
# Restrained hooks

A host may restrain its hooks: no instruction in the scripts that it stores, to any depth, is of a
certain kind. What is stored stays restrained as long as the operations from outside are, and such
an operation runs within a scope that has no instruction of that kind
(`Machine.perform_restrained`).
-/

set_option autoImplicit false

namespace Reclaim

variable {sc : Scope} {p : Op → Bool} {op : Op}

/-! ## Instructions of a kind -/

mutual

/-- The operation and all instructions in its scripts, to any depth, have a property. -/
def Op.everywhere (p : Op → Bool) : Op → Bool
  | .setFinalizer id script => p (.setFinalizer id script) && Script.everywhere p script
  | .addCallback phase script => p (.addCallback phase script) && Script.everywhere p script
  | .call c => p (.call c)
  | .ask q => p (.ask q)
  | .raw r => p (.raw r)

/-- All instructions in a script, to any depth, have a property. -/
def Script.everywhere (p : Op → Bool) : List (Step Op) → Bool
  | [] => true
  | step :: rest => Step.everywhere p step && Script.everywhere p rest

/-- The instruction of a step, and those in its scripts, have a property. -/
def Step.everywhere (p : Op → Bool) : Step Op → Bool
  | ⟨op, _⟩ => Op.everywhere p op

end

/-- The script that an operation stores. -/
def Op.stored : Op → Script
  | .setFinalizer _ script => script
  | .addCallback _ script => script
  | _ => []

theorem Op.everywhere_iff :
    op.everywhere p = true ↔ p op = true ∧ Script.everywhere p op.stored = true := by
  cases op <;> simp [everywhere, stored, Script.everywhere]

theorem Script.everywhere_of_mem {script : Script} {step : Step Op}
    (all : everywhere p script = true) (mem : step ∈ script) : step.op.everywhere p = true := by
  obtain ⟨op, tolerant⟩ := step
  induction script with
  | nil => cases mem
  | cons first rest ih =>
    rw [everywhere, Bool.and_eq_true] at all
    rcases List.mem_cons.mp mem with rfl | mem
    · exact all.1
    · exact ih all.2 mem

/-! ## The scope of restrained hooks -/

/-- What may happen in a scope if all instructions of its hooks have a property. -/
def Scope.restrict (sc : Scope) (p : Op → Bool) : Scope where
  names := sc.names
  hooks script := sc.hooks script ∧ Script.everywhere p script = true
  allows op := sc.allows op ∧ op.everywhere p = true
  may := sc.may
  saving := sc.saving
  passes := sc.passes
  sweeps := sc.sweeps
  host allowed := sc.host allowed.1
  deeds allowed := sc.deeds allowed.1
  steps hook mem := ⟨sc.steps hook.1 mem, Script.everywhere_of_mem hook.2 mem⟩
  finalizer allowed :=
    have within := sc.finalizer allowed.1
    ⟨⟨within.1, (Op.everywhere_iff.mp allowed.2).2⟩, within.2⟩
  callback allowed := ⟨sc.callback allowed.1, (Op.everywhere_iff.mp allowed.2).2⟩
  flags allowed := sc.flags allowed.1
  swept := sc.swept

/-- All instructions in the hooks that memory has stored have a property. -/
structure Memory.Restrains (p : Op → Bool) (m : Memory) : Prop where
  pending : ∀ {x script}, m.heap.pending? x = some script → Script.everywhere p script = true
  callbacks : ∀ {c cb}, m.collector = some c → cb ∈ c.callbacks →
    Script.everywhere p cb.script = true

namespace Machine

variable {b : Bool} {L : Loose} {Q : ObjectId → Prop} {s : Machine}

theorem At.restrict (A : At sc b L Q s) (R : s.memory.Restrains p) :
    At (sc.restrict p) b L Q s := by
  have W := A.sound.within
  refine ⟨⟨A.sound.balanced, A.sound.files, fun {x o script} hx pending => ?_,
    fun passes {_ _} hc hcb => ⟨W.callbacks passes hc hcb, R.callbacks hc hcb⟩, W.saving⟩,
    A.freeing, A.collecting⟩
  obtain ⟨name, hook⟩ := W.pending hx pending
  refine ⟨name, hook, R.pending (x := x) ?_⟩
  rw [Heap.pending?, hx]
  exact pending

theorem At.unrestrict (A : At (sc.restrict p) b L Q s) : At sc b L Q s where
  sound := by
    have W := A.sound.within
    refine ⟨A.sound.balanced, A.sound.files, fun hx pending => ?_,
      fun passes {_ _} hc hcb => (W.callbacks passes hc hcb).1, W.saving⟩
    obtain ⟨name, hook⟩ := W.pending hx pending
    exact ⟨name, hook.1⟩
  freeing := A.freeing
  collecting := A.collecting

theorem At.restrains (passes : sc.passes) (A : At (sc.restrict p) b L Q s) :
    s.memory.Restrains p where
  pending {x script} pending := by
    obtain ⟨o, hx, pending⟩ := Option.bind_eq_some_iff.mp pending
    exact (A.sound.within.pending hx pending).2.2
  callbacks hc hcb := (A.sound.within.callbacks passes hc hcb).2

/-- Restrained operations on a memory with restrained hooks run within their scope. -/
theorem perform_restrained (S : s.memory.Settled) (R : s.memory.Restrains p)
    (host : op.isHostOp = true) (all : op.everywhere p = true) :
    Leads ((s.memory.scope op).restrict p) false Loose.none s.forget Loose.none
      (fun _ => False) (s.perform op).2 := by
  have A := (Memory.Settled.at (s := s) S (S.within op)).restrict R
  refine perform_leads S A.sound.within trivial ⟨⟨host, fun x hx => ?_⟩, all⟩
    (s.memory.unspent_le_budget op)
  exact List.mem_toFinset.mpr (List.mem_append_right _ hx)

end Machine

end Reclaim
