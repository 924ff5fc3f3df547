import Mathlib.Data.Set.Card
import Reclaim.Proofs.Runs
import Reclaim.Proofs.Shedding

/-!
# Full collections

In a run without hooks, watched by a collector from an empty heap on, a pass over all generations
looks at all live containers. What the analysis finds held by counts is then what the host reaches
(`Analysis.held_iff_reachable`), so the pass frees exactly what is not reachable: the containers by
itself, and the atoms with the references that lead out of them (`Machine.Watched.full_collection`).
-/

set_option autoImplicit false

namespace Reclaim

open Machine

variable {s s' : Machine} {x : ObjectId} {op : Op}

/-- What may happen in a run without hooks, in which passes may keep their garbage. -/
def Scope.hookless : Scope :=
  .plain (fun op => op.isPlainOp = true) True (fun _ => id) fun _ _ _ => trivial

/-- Without hooks and without keeping garbage, only the library takes steps while it collects. -/
theorem Memory.Within.idle {m : Memory} (W : m.Within .hookless)
    (off : ∀ c, m.collector = some c → c.debug.has .saveAll = false) : m.Within .idle where
  pending hx pending := (W.pending hx pending).2.elim
  callbacks _ {_ _} hc hcb := (W.callbacks trivial hc hcb).elim
  saving _ _ {_} hc on := by
    rw [off _ hc] at on
    cases on

/-- What holds between operations without hooks of a heap that its collector knows completely. -/
structure Memory.Watched (m : Memory) : Prop where
  settled : m.Settled
  within : m.Within .hookless
  filesAll : m.FilesAll

/-- If the members are all containers, what is held from outside is what the host reaches. -/
theorem Analysis.held_iff_reachable {h : Heap} {members : List ObjectId} (C : h.Consistent)
    (nodup : members.Nodup)
    (all : ∀ x, x ∈ members ↔ ∃ o, h.get? x = some o ∧ o.kind = .container) :
    Held h members x ↔ x ∈ members ∧ h.Reachable x := by
  -- atoms hold no references, so every holder is among the members
  have holder (r y : ObjectId) (hy : y ∈ h.refs r) : r ∈ members :=
    (all r).mpr (C.container_of_mem_refs hy)
  -- by the counting law, the references that no member holds are those of the host
  have external {y : ObjectId} {o : Object} (ho : h.get? y = some o) :
      h.inEdgesFrom members y < o.strongCount ↔ 0 < o.rootCount := by
    have count := C.count ho
    have inner := Heap.inEdges_eq_inEdgesFrom (h := h) (x := y) nodup fun r => holder r y
    omega
  constructor
  · intro held
    refine ⟨held.mem, ?_⟩
    induction held with
    | outside _ ho count => exact .root ⟨_, ho, (external ho).mp count⟩
    | step _ hy _ ih => exact .step ih hy
  · rintro ⟨mem, reach⟩
    induction reach with
    | root rooted =>
      obtain ⟨o, ho, pos⟩ := rooted
      exact .outside mem ho ((external ho).mpr pos)
    | step _ hy ih => exact .step (ih (holder _ _ hy)) hy mem

/-- A pass over all generations looks at all live containers. -/
theorem Memory.Settled.mem_members {m : Memory} (S : m.Settled) (F : m.FilesAll) {c : Collector}
    (hc : m.collector = some c) : x ∈ Cycles.members m.heap (c.tracker.candidates .oldest) ↔
      ∃ o, m.heap.get? x = some o ∧ o.kind = .container := by
  rw [Cycles.mem_members]
  constructor
  · rintro ⟨-, o, ho, kind, -⟩
    exact ⟨o, ho, kind⟩
  · rintro ⟨o, ho, kind⟩
    refine ⟨(F hc).mem_candidates_oldest ho kind, o, ho, kind, ?_⟩
    exact S.consistent.settled ho

/-- A collection on demand that has resurrected nothing answers with what its pass has collected. -/
theorem Machine.perform_collect {c c' : Collector} {g : Generation} {pass : PassHooks}
    {outcome : PassOutcome} (hc : s.memory.collector = some c) (idle : c.collecting = false)
    (hp : (s.hooksFor (.call (.collect g.val))).pass? = some pass)
    (run : Pass.run pass g s.forget = .ok outcome s') (hc' : s'.memory.collector = some c')
    (unresurrected : outcome.resurrected = []) :
    s.perform (.call (.collect g.val)) = ({
      outcome := .ok (.nat outcome.collected)
      moments := s'.journal.reverse
      console := s'.console }, s') := by
  have number : Generation.ofInt? g.val = some g := (Generation.ofInt?_eq_some_iff _ g).mpr rfl
  have collected := Host.collect_apply (s := s.forget) hc idle number hp run hc'
  simp only [unresurrected, List.isEmpty_nil, Bool.not_true, Bool.and_false, Bool.false_eq_true,
    if_false] at collected
  apply perform_of_ok
  simp only [Host.perform, Host.call, Act.bind_apply, collected, Act.pure_apply]

namespace Memory.Watched

variable {m : Memory}

/-- Without hooks there is nobody to tell about a pass and no finalizer to run. If garbage is not
saved either, only the library takes steps. -/
theorem unattended (W : s.memory.Watched) {c : Collector} (hc : s.memory.collector = some c)
    (off : c.debug.has .saveAll = false) :
    At .idle false Loose.none (fun _ => False) s.forget ∧ c.callbacks = [] ∧
      ∀ x o, s.memory.heap.get? x = some o → o.pendingFinalizer? = none := by
  have within : s.memory.Within .idle := W.within.idle fun c' hc' => by
    rw [hc, Option.some.injEq] at hc'
    exact hc' ▸ off
  refine ⟨W.settled.at (s := s.forget) within, ?_, fun x o hx => ?_⟩
  · exact List.eq_nil_iff_forall_not_mem.mpr fun cb hcb => within.callbacks trivial hc hcb
  · cases pending : o.pendingFinalizer? with
    | none => rfl
    | some script => exact (within.pending hx pending).2.elim

/-- A full collection counts the containers that the host does not reach, and they are gone. -/
theorem collect (W : s.memory.Watched) {c : Collector} (hc : s.memory.collector = some c)
    (off : c.debug.has .saveAll = false) : ∃ garbage : List ObjectId, garbage.Nodup ∧
      (∀ x, x ∈ garbage ↔ (∃ o, s.memory.heap.get? x = some o ∧ o.kind = .container) ∧
        ¬ s.memory.heap.Reachable x) ∧
      (s.perform (.call (.collect 2))).1.outcome = .ok (.nat garbage.length) ∧
      s.memory.heap.Sheds (s.perform (.call (.collect 2))).2.memory.heap ∧
      ∀ x ∈ garbage, (s.perform (.call (.collect 2))).2.memory.heap.get? x = none := by
  obtain ⟨A, callbacks, unhooked⟩ := W.unattended hc off
  have H : (s.hooksFor (.call (.collect 2))).Sound .idle false _ :=
    Hooks.outside_sound .idle trivial _
  obtain ⟨pass, hp, P⟩ := H.pass rfl (.inl rfl)
  obtain ⟨outcome, s', run, leads, sweeps⟩ := Pass.run_leads (g := .oldest) P A (Nat.zero_le _) hc
  obtain ⟨garbage, count, gone, quiet⟩ := sweeps callbacks
  obtain ⟨unresurrected, nodup, mem⟩ := quiet unhooked
  obtain ⟨c', hc'⟩ := leads.exists_collector hc
  rw [show s.perform (.call (.collect 2)) = _ from
    perform_collect (g := .oldest) hc (A.collecting_eq hc) hp run hc' unresurrected, count]
  -- the members are all containers, so those not held are those not reached
  refine ⟨garbage, nodup, fun x => (mem x).trans ?_, rfl, A.sheds leads.steps, gone off⟩
  have held := Analysis.held_iff_reachable (x := x) W.settled.consistent
    (((W.settled.files hc).nodup_candidates .oldest).filter _) fun y =>
      W.settled.mem_members W.filesAll hc
  rw [← W.settled.mem_members W.filesAll hc]
  exact and_congr_right fun member => not_congr (held.trans (and_iff_right member))

/-- A full collection leaves what the host reaches, and nothing else. -/
theorem collect_live (W : s.memory.Watched) {c : Collector} (hc : s.memory.collector = some c)
    (off : c.debug.has .saveAll = false) :
    (∃ p, (s.perform (.call (.collect 2))).2.memory.heap.get? x = some p) ↔
      s.memory.heap.Reachable x := by
  obtain ⟨garbage, -, mem, -, sheds, gone⟩ := W.collect hc off
  have settled : (s.perform (.call (.collect 2))).2.memory.Settled := perform_settled W.settled rfl
  have consistent := settled.consistent
  -- a container that is left was not counted as garbage, and it was one before
  have container {y : ObjectId} {p : Object} (kind : p.kind = .container)
      (hy : (s.perform (.call (.collect 2))).2.memory.heap.get? y = some p) :
      s.memory.heap.Reachable y := by
    by_contra unreachable
    obtain ⟨o, ho, kind', -⟩ := sheds.old y p hy
    have dead := gone y ((mem y).mpr ⟨⟨o, ho, kind' ▸ kind⟩, unreachable⟩)
    rw [hy] at dead
    cases dead
  constructor
  · rintro ⟨p, hx⟩
    rcases consistent.rooted_or_held hx with ⟨q, hq, rooted⟩ | ⟨r, hr⟩
    · obtain ⟨o, ho, -, root⟩ := sheds.old x q hq
      exact .root ⟨o, ho, root ▸ rooted⟩
    -- what it is counted for is a reference from a container that is reached
    · obtain ⟨q, hq, kind⟩ := consistent.container_of_mem_refs hr
      have reach := container kind hq
      rw [Heap.refs_of_shape? (sheds.kept r reach)] at hr
      exact .step reach hr
  · intro reach
    obtain ⟨o, ho⟩ := W.settled.balanced.live_of_reachable reach
    have kept := sheds.kept x reach
    rw [Heap.shape?_of_get? ho] at kept
    obtain ⟨p, hp, -⟩ := Heap.exists_of_shape? kept
    exact ⟨p, hp⟩

end Memory.Watched

/-! ## Runs without hooks -/

namespace Machine

/-- A machine whose heap is given a collector while it is empty, and which installs no hooks. -/
abbrev Watched : Machine → Prop := Supervised Op.isPlainOp

/-- A new collector knows an empty heap completely. -/
theorem watched_of_empty {m : Memory} (S : m.Settled) (empty : ∀ x, m.heap.get? x = none)
    (fresh : ∀ c, m.collector = some c → ∃ settings, Collector.start settings = .ok c) :
    m.Watched where
  settled := S
  within := by
    refine ⟨fun {x o script} hx => ?_, fun _ {c cb} hc hcb => ?_, fun _ _ {_} _ _ => trivial⟩
    · rw [empty x] at hx
      cases hx
    · obtain ⟨settings, run⟩ := fresh c hc
      rw [(Collector.start_fresh run).2.2.1] at hcb
      cases hcb
  filesAll {c} hc x n hx := by
    rw [Heap.filing, empty x] at hx
    cases hx

theorem perform_watched (W : s.memory.Watched) (plain : op.isPlainOp = true) :
    (s.perform op).2.memory.Watched := by
  have A : At .hookless false Loose.none (fun _ => False) s.forget :=
    W.settled.at (s := s.forget) W.within
  have leads : Leads .hookless false Loose.none s.forget Loose.none (fun _ => False)
      (s.perform op).2 := perform_leads W.settled W.within trivial plain (Nat.zero_le _)
  have host : op.isHostOp = true := by
    cases op <;> first | rfl | cases plain
  exact ⟨perform_settled W.settled host, leads.there.sound.within,
    Steps.filesAll leads.steps A.sound W.filesAll⟩

theorem Watched.memory (run : Watched s) : s.memory.Watched := by
  induction run with
  | start settings run =>
    have settled := settled_of_start run
    obtain ⟨collector, rfl, fresh⟩ := exists_of_start run
    exact watched_of_empty settled Heap.get?_empty fresh
  | @attach s settings run empty =>
    have settled : (s.perform (.raw (.attach settings))).2.memory.Settled :=
      (run.perform rfl).settled
    obtain ⟨collector, fresh, e⟩ := perform_attach _ settings
    rw [e] at settled ⊢
    exact watched_of_empty settled empty fun c hc => ⟨settings, fresh c hc⟩
  | perform _ plain ih => exact perform_watched ih plain

end Machine

/-- The live containers that the host does not reach. -/
def Heap.unreached (h : Heap) : Set ObjectId :=
  {x | (∃ o, h.get? x = some o ∧ o.kind = .container) ∧ ¬ h.Reachable x}

/-- A list of the containers that the host does not reach counts them. -/
theorem Heap.ncard_unreached {h : Heap} {garbage : List ObjectId} (nodup : garbage.Nodup)
    (mem : ∀ x, x ∈ garbage ↔ x ∈ h.unreached) : h.unreached.ncard = garbage.length := by
  have unreached : h.unreached = ↑garbage.toFinset := by
    ext x
    rw [Finset.mem_coe, List.mem_toFinset, mem]
  rw [unreached, Set.ncard_coe_finset, List.toFinset_card_of_nodup nodup]

/-- A full collection counts the containers that the host does not reach. -/
theorem Memory.Watched.collect_answers (W : s.memory.Watched) {c : Collector}
    (hc : s.memory.collector = some c) (off : c.debug.has .saveAll = false) :
    (s.perform (.call (.collect 2))).1.outcome = .ok (.nat s.memory.heap.unreached.ncard) := by
  obtain ⟨garbage, nodup, mem, outcome, -, -⟩ := W.collect hc off
  rw [outcome, Heap.ncard_unreached nodup mem]

namespace Machine

/-- A full collection is a tracing collection: it answers with the number of containers that the
host did not reach, what it leaves is what the host reached, and what it leaves is unchanged and
counted right. -/
theorem Watched.full_collection (run : Watched s) {c : Collector}
    (hc : s.memory.collector = some c) (off : c.debug.has .saveAll = false) {record : Record}
    {s' : Machine} (performed : s.perform (.call (.collect 2)) = (record, s')) :
    record.outcome = .ok (.nat s.memory.heap.unreached.ncard) ∧
      (∀ x, (∃ p, s'.memory.heap.get? x = some p) ↔ s.memory.heap.Reachable x) ∧
      ∀ x p, s'.memory.heap.get? x = some p → ∃ o, s.memory.heap.get? x = some o ∧
        p.kind = o.kind ∧ p.rootCount = o.rootCount ∧ p.references = o.references ∧
        p.strongCount = p.rootCount + s'.memory.heap.inEdges x := by
  have W := run.memory
  obtain ⟨garbage, nodup, mem, outcome, sheds, -⟩ := W.collect hc off
  have live (x : ObjectId) := W.collect_live (x := x) hc off
  have settled : (s.perform (.call (.collect 2))).2.memory.Settled := perform_settled W.settled rfl
  rw [performed] at outcome sheds live settled
  refine ⟨?_, live, ?_⟩
  · rw [outcome, Heap.ncard_unreached nodup mem]
  · intro x p hp
    have kept := sheds.kept x ((live x).mp ⟨p, hp⟩)
    rw [Heap.shape?_of_get? hp] at kept
    obtain ⟨o, ho, e⟩ := Heap.exists_of_shape? kept.symm
    exact ⟨o, ho, (congrArg (·.kind) e).symm, (congrArg (·.rootCount) e).symm,
      (congrArg (·.references) e).symm, settled.consistent.count hp⟩

/-- Two containers that refer to each other and to an atom, which a third one refers to as well. The
host holds the third one only. -/
def islands : Machine :=
  ((({} : Machine).perform (.raw (.attach {}))).2.performAll [
    .call (.allocate .container "node"), .call (.allocate .container "node"),
    .call (.allocate .atom "leaf"), .call (.allocate .container "node"),
    .call (.addEdge (.id 1) (.id 2)), .call (.addEdge (.id 2) (.id 1)),
    .call (.addEdge (.id 1) (.id 3)), .call (.addEdge (.id 4) (.id 3)),
    .call (.release (.id 1)), .call (.release (.id 2)), .call (.release (.id 3))]).2

theorem watched_islands : Watched islands :=
  Supervised.performAll (.attach {} (.start none rfl) Heap.get?_empty) (by rfl)

theorem full_collection_islands :
    (islands.perform (.call (.collect 2))).1.outcome =
        .ok (.nat islands.memory.heap.unreached.ncard) ∧
      (∀ x, (∃ p, (islands.perform (.call (.collect 2))).2.memory.heap.get? x = some p) ↔
        islands.memory.heap.Reachable x) ∧
      (islands.perform (.call (.collect 2))).2.memory.heap.toList.map (·.id) = [3, 4] := by
  have off : islands.memory.collector.any (!·.debug.has .saveAll) = true := by decide +kernel
  obtain ⟨c, hc, off⟩ := (Option.any_eq_true _ _).mp off
  have law := watched_islands.full_collection hc (by simpa using off) Prod.mk.eta.symm
  exact ⟨law.1, law.2.1, by decide +kernel⟩

end Machine

end Reclaim
