import Reclaim.Analysis
import Reclaim.Release

/-!
# Collecting cycles

Given some candidates, `Cycles.collect` finds those that only candidates refer to, runs their
finalizers, and reclaims what is still unreachable then. A second analysis, among the unreachable
containers alone, decides what the finalizers have made reachable again; it is left out if no
finalizer has run. References between reclaimed containers are dropped without counting, references
that lead out of them are given back once all of them are gone.
-/

namespace Reclaim

namespace Cycles

/-- The candidates that are looked at: live containers that are not being freed already. -/
def members (h : Heap) (candidates : List ObjectId) : List ObjectId :=
  candidates.filter fun id => (h.get? id).any fun o => o.isContainer && !o.freeing

/-- Divides members into those that are reachable from outside and the others. It is a fault if a
member has fewer references than the members alone hold on it. -/
def divide (members : List ObjectId) : Act (List ObjectId × List ObjectId) := do
  let h := Analysis.externalCounts (← Act.heap) members
  Act.setHeap h
  match Analysis.deficient? h members with
  | some id => throw (.inconsistentCount (.belowEdges id))
  | none =>
      let h := Analysis.markReachable h members
      let (h, reachable, unreachable) := Analysis.partition h members
      Act.setHeap h
      return (reachable, unreachable)

/-- Runs the pending finalizers of those objects that are still live when their turn comes. The
answer tells if there were any. -/
def finalizeAll (fin : Finalization) : List ObjectId → Act Bool
  | [] => return false
  | id :: rest => do
      if ((← Act.heap).get? id).any (·.hasPendingFinalizer) then
        Release.runFinalizer fin id
        let _ ← finalizeAll fin rest
        return true
      else
        finalizeAll fin rest

/-- Reports some containers, each by its label. -/
def report (verdict : String) (ids : List ObjectId) : Act Unit :=
  ids.forM fun id => do
    match (← Act.heap).get? id with
    | some o => Act.post (.info s!"gc: {verdict} {o.label}")
    | none => return

/-- Takes the references out of some containers; the answer lists, in order, those that lead to
other objects. -/
def unlink (h : Heap) (garbage : List ObjectId) : Heap × List ObjectId :=
  let among := Analysis.index garbage
  let outgoing := garbage.flatMap fun id =>
    ((h.get? id).elim [] (·.references)).filter (!among.contains ·)
  (garbage.foldl (fun h id => h.modify id Object.clearReferences) h, outgoing)

/-- Frees unreachable containers, or gives the collector a root reference to each. -/
def sweep (fin : Finalization) (options : PassOptions) (garbage : List ObjectId) : Act Unit := do
  if options.saveGarbage then
    garbage.forM fun id => Act.edit (·.retain id)
  else
    let (h, outgoing) := unlink (← Act.heap) garbage
    Act.setHeap h
    garbage.forM fun id => do
      if options.logCollectable then
        report "collectable" [id]
      Release.destroy id
    -- only now, when no garbage is left that a cascade could come across
    outgoing.forM (Release.dropReference fin)

/-- Deals with the members that are not reachable from outside. Once their finalizers have run,
`recheck` tells, from whether there were any, if those that are left are divided again. The answer
lists those that died, by whatever way, those that were found reachable again, and those that were
saved. -/
def reclaimWith (recheck : Bool → Bool) (fin : Finalization) (options : PassOptions)
    (unreachable : List ObjectId) : Act (List ObjectId × List ObjectId × List ObjectId) := do
  let ran ← finalizeAll fin unreachable
  let h ← Act.heap
  -- the finalizers may have freed some of the objects on their own
  let dead := unreachable.filter (!h.contains ·)
  let garbage := unreachable.filter (h.contains ·)
  let (resurrected, garbage) ←
    if recheck ran && !garbage.isEmpty then divide garbage else pure ([], garbage)
  if options.logUncollectable then
    report "uncollectable" resurrected
  sweep fin options garbage
  return (dead ++ garbage, resurrected, if options.saveGarbage then garbage else [])

/-- Reclaims the candidates that only candidates refer to, where `recheck` tells, from whether a
finalizer has run, if the unreachable ones are divided again before they are swept. -/
def collectWith (recheck : Bool → Bool) (fin : Finalization) (generation : Int)
    (candidates : List ObjectId) (options : PassOptions) : Act CycleReport := do
  let members := members (← Act.heap) candidates
  let (reachable, unreachable) ← divide members
  let (collected, resurrected, saved) ←
    if unreachable.isEmpty then pure ([], [], []) else
      reclaimWith recheck fin options unreachable
  let h ← Act.heap
  return {
    generation
    examined := members.length
    collected
    resurrected
    survivors := (reachable ++ resurrected ++ saved).filter (h.contains ·) }

/-- Reclaims the candidates that only candidates refer to. The unreachable ones are divided again
just if a finalizer has run. -/
def collect (fin : Finalization) (generation : Int) (candidates : List ObjectId)
    (options : PassOptions) : Act CycleReport :=
  collectWith id fin generation candidates options

end Cycles

end Reclaim
