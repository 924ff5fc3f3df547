import Reclaim.Cycles

/-!
# Passes of the collector

A pass collects the cycles among the containers of some generations, promotes what survives, and
keeps the books. Callbacks are told about both ends of it. While a pass runs the collector is marked
as collecting, and no other pass can start.
-/

namespace Reclaim

/-- What the one who asked for a pass is told. -/
structure PassOutcome where
  collected : Nat
  resurrected : List ObjectId
  /-- The older generation that is due now. -/
  due : Option Generation
  deriving DecidableEq

/-- How the hooks of a pass are run. -/
structure PassHooks where
  finalization : Finalization
  /-- What a callback does at an end of a pass that its steps cover. -/
  callback : Script → Act Unit

namespace Pass

/-- Tells one callback about an end of a pass. A fault of the callback is reported and goes no
further. -/
def tell (hooks : PassHooks) (phase : Phase) (info : PassInfo) (callback : Callback) :
    Act Unit := do
  Act.record (.calledBack callback.index phase info)
  if callback.phase.covers phase then
    match ← Act.attempt (hooks.callback callback.script) with
    | .ok _ => return
    | .error fault => Act.post (.warning s!"exception in collection callback: {fault.message}")
  else
    return

/-- Tells the callbacks that are registered now about an end of a pass. -/
def tellAll (hooks : PassHooks) (phase : Phase) (info : PassInfo) : Act Unit := do
  (← Act.collector).callbacks.forM (tell hooks phase info)

/-- What the debug flags ask of a pass. -/
def options (flags : DebugFlags) : PassOptions where
  saveGarbage := flags.has .saveAll
  logCollectable := flags.has .collectable
  logUncollectable := flags.has .uncollectable

/-- The sizes of the three buckets in words. -/
def bucketSizes (t : Tracker) : String :=
  " ".intercalate (t.buckets.toList.map fun bucket => toString bucket.size)

/-- Writes a line about the pass if the collector is to report statistics. -/
def reportStats (text : Collector → String) : Act Unit := do
  let c ← Act.collector
  if c.debug.has .stats then
    Act.post (.info (text c))

/-- Promotes the survivors and enters the pass into the books. The answer is the older generation
that is due now. -/
def book (g : Generation) (options : PassOptions) (result : CycleReport) :
    Act (Option Generation) := do
  let c ← Act.collector
  let h ← Act.heap
  let (tracker, objects, due) := c.tracker.passCompleted g result.survivors h.objects
  Act.setHeap { h with objects }
  Act.modifyCollector fun c =>
    let c := { c with tracker }.addStats g result.collected.length result.resurrected.length
    if options.saveGarbage then { c with garbage := c.garbage ++ result.collected } else c
  return due

/-- What is reported of a pass over `g` when it starts. -/
def openingText (g : Generation) (t : Tracker) : String :=
  s!"gc: collecting generation {g.val}... objects in each generation: " ++ bucketSizes t

/-- What is reported of a pass when it is over. -/
def closingText (collected uncollectable examined : Nat) : String :=
  s!"gc: done, {collected} unreachable, {uncollectable} uncollectable, {examined} examined"

/-- What a pass does before it collects. The callbacks may change the flags and the buckets, so the
collector is read after they have been told, which is the answer. -/
def opening (hooks : PassHooks) (g : Generation) : Act Collector := do
  tellAll hooks .start ⟨g, 0, 0⟩
  reportStats fun c => openingText g c.tracker
  Act.collector

/-- What a pass does once it has been entered into the books. -/
def aftermath (hooks : PassHooks) (g : Generation) (result : CycleReport)
    (due : Option Generation) : Act PassOutcome := do
  let collected := result.collected.length
  let uncollectable := result.resurrected.length
  result.resurrected.forM fun id =>
    Act.post (.warning
      s!"object #{id} was resurrected by a finalizer and is left for a later pass")
  reportStats fun _ => closingText collected uncollectable result.examined
  tellAll hooks .stop ⟨g, collected, uncollectable⟩
  return { collected, resurrected := result.resurrected, due }

/-- What a pass does with the result of its collection. -/
def closing (hooks : PassHooks) (g : Generation) (options : PassOptions) (result : CycleReport) :
    Act PassOutcome := do
  aftermath hooks g result (← book g options result)

/-- The course of a pass, between its being marked as running and that mark being cleared. -/
def body (hooks : PassHooks) (g : Generation) : Act PassOutcome := do
  let c ← opening hooks g
  let result ← Cycles.collect hooks.finalization g.val (c.tracker.candidates g) (options c.debug)
  closing hooks g (options c.debug) result

/-- A pass over `g` and the younger generations. However it ends, no pass is running afterwards. -/
def run (hooks : PassHooks) (g : Generation) : Act PassOutcome := do
  Act.modifyCollector ({ · with collecting := true })
  -- a fault is held back until the mark has been cleared
  let outcome ← Act.attempt (body hooks g)
  Act.modifyCollector ({ · with collecting := false })
  Act.ofExcept outcome

/-- A pass over `g`, and passes over the older generations that become due in turn; there are no
more of these than generations. -/
def runDue (runPass : Generation → Act PassOutcome) : Nat → Generation → Act Unit
  | 0, _ => return
  | rounds + 1, g => do
      match (← runPass g).due with
      | none => return
      | some older => runDue runPass rounds older

end Pass

end Reclaim
