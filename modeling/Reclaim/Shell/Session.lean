import Reclaim.Run
import Reclaim.Shell.Command

/-!
# A session of the shell

The shell is a host that works line by line. Each bound name holds one root reference, and a name
stays known after it has been unbound. `Shell.execute` runs one command and may end in a fault;
`Shell.runLine` and `Shell.runScript` report faults and never pass them on.
-/

namespace Reclaim

/-- A shell and the machine it works on. -/
structure Shell where
  machine : Machine
  /-- Names that hold a root reference. -/
  bindings : Std.ExtTreeMap String ObjectId := ∅
  /-- The object that each name was last bound to, live or not. -/
  names : Std.ExtTreeMap String ObjectId := ∅
  /-- The number that the last collect command reported. -/
  lastCollected : Nat := 0
  /-- Commands are repeated on the console. -/
  echo : Bool := false

/-- An action of the shell. -/
abbrev ShellAct := EStateM Fault Shell

namespace Shell

/-- A shell on an empty heap. -/
def start (settings : Settings) (echo : Bool) : Except Fault Shell := do
  return { machine := ← Machine.start (some settings), echo }

/-- Runs an action that sets off no hooks on the shell's machine. -/
def quietly (action : Act α) : ShellAct α := fun sh =>
  match action sh.machine with
  | .ok a machine => .ok a { sh with machine }
  | .error e machine => .error e { sh with machine }

/-- Runs an action that may set off hooks on the shell's machine. -/
def onMachine (action : Hooks → Act α) : ShellAct α := quietly (Machine.runWithin 0 action)

/-- Adds ordinary output. -/
def print (text : String) : ShellAct Unit := quietly (Act.print text)

/-- The object that a name was last bound to. -/
def resolve (sh : Shell) (name : String) : Except Fault ObjectId :=
  match sh.names[name]? with
  | some id => .ok id
  | none => .error (.command (.unknownName name) (-1))

/-- The object that a name was last bound to. -/
def lookup (name : String) : ShellAct ObjectId := do
  match (← get).resolve name with
  | .ok id => return id
  | .error e => throw e

/-- Lets a name take over a root reference, and gives back the one that it held. -/
def bindName (name : String) (id : ObjectId) : ShellAct Unit := do
  let previous := (← get).bindings[name]?
  modify fun sh =>
    { sh with bindings := sh.bindings.insert name id, names := sh.names.insert name id }
  match previous with
  | some old => onMachine (Host.release · old)
  | none => return

/-- Gives back the root reference that a name holds. -/
def unbindName (name : String) : ShellAct Unit := do
  match (← get).bindings[name]? with
  | none => throw (.command (.notBound name) (-1))
  | some id => do
      onMachine (Host.release · id)
      modify fun sh => { sh with bindings := sh.bindings.erase name }

/-- Handles behind number signs. -/
def handles (ids : List ObjectId) : List String := ids.map fun id => s!"#{id}"

/-- An object in words. -/
def description (o : Object) : String :=
  let generation := if o.isContainer then s!" gen {o.generation}" else ""
  let references :=
    if o.isContainer then " refs [" ++ ", ".intercalate (handles o.references) ++ "]" else ""
  s!"{o.label} {o.kind.name}" ++ generation ++ s!" count {o.strongCount} roots {o.rootCount}" ++
    references

/-- What a handle refers to, in words. -/
def describe (h : Heap) (id : ObjectId) : String :=
  match h.get? id with
  | some o => description o
  | none => s!"<freed #{id}>"

/-- A titled list of handles on a line. -/
def listing (title : String) (ids : List ObjectId) : String :=
  title ++ ":" ++ String.join ((handles ids).map (" " ++ ·)) ++ "\n"

/-- The counts of the schedule on a line. -/
def countsLine (counts : PerGeneration Nat) : String :=
  "count: " ++ " ".intercalate (counts.toList.map toString) ++ "\n"

/-- The statistics of a generation on a line. -/
def statsLine (g : Generation) (s : GenerationStats) : String :=
  s!"gen {g.val}: collections {s.collections} collected {s.collected}" ++
    s!" uncollectable {s.uncollectable}\n"

/-- The script of a finalizer that announces itself and then lets `holder` refer to the dying
object. -/
def finalizerScript (name : String) (holder : Option ObjectId) : Script :=
  ⟨.call (.announce name), false⟩ ::
    (holder.map fun id => ⟨.call (.addEdge (.id id) .self), false⟩).toList

/-- Checks an expectation. -/
def expect (holds : Bool) (cause : CommandFault) (line : Int) : ShellAct Unit :=
  if holds then return else throw (.command cause line)

/-- Runs a command; faults of the command itself are those of a given line. -/
def run (line : Int) : Command → ShellAct Unit
  | .new name kind typeName => do
      bindName name (← onMachine (Host.allocate · kind typeName))
  | .bind name other => do
      let id ← lookup other
      quietly (Host.retain id)
      bindName name id
  | .del name => unbindName name
  | .link source target => do
      let target ← lookup target
      let source ← lookup source
      quietly (Host.addEdge source target)
  | .unlink source target => do
      let target ← lookup target
      let source ← lookup source
      onMachine (Host.removeEdge · source target)
  | .finalizer name word => do
      let id ← lookup name
      match word with
      | .log => quietly (Host.setFinalizer id (some (finalizerScript name none)))
      | .resurrect none => throw (.command .holderMissing line)
      | .resurrect (some holder) => do
          let holder ← lookup holder
          quietly (Host.setFinalizer id (some (finalizerScript name (some holder))))
      | .unknown => throw (.command .finalizerWord line)
  | .collect generation => do
      let collected ← onMachine (Host.collect · (generation.getD .oldest).val)
      modify fun sh => { sh with lastCollected := collected }
      print s!"collected {collected}\n"
  | .enable => quietly (Host.setEnabled true)
  | .disable => quietly (Host.setEnabled false)
  | .threshold counts => quietly (Host.setThresholds counts)
  | .debug flags => quietly (Host.setDebug flags)
  | .policy policy => quietly (Host.setPolicy policy)
  | .describe name => do
      print s!"{name} = "
      let id ← lookup name
      let h ← quietly Act.heap
      print (describe h id ++ "\n")
  | .tracked => do
      let m ← quietly Act.memory
      let c ← quietly Act.collector
      print (listing "tracked" (m.tracked c))
  | .count => do
      print (countsLine (← quietly Act.collector).tracker.counts)
  | .stats => do
      let c ← quietly Act.collector
      let h ← quietly Act.heap
      print (String.join ((List.finRange 3).map fun g : Generation => statsLine g (c.stats.get g)))
      print s!"objects {h.size} freed {h.freed}\n"
  | .garbage => do
      print (listing "garbage" (← quietly Act.collector).garbage)
  | .clearGarbage => do
      print "released "
      let count ← onMachine Host.clearGarbage
      print s!"{count}\n"
  | .expectCollected count => do
      let collected := (← get).lastCollected
      expect (collected = count) (.collectedMismatch count collected) line
  | .expectTracked name written generation => do
      let id ← lookup name
      let c ← quietly Act.collector
      let actual : Int := (c.tracker.generationOf? id).elim (-1) (·.val)
      expect (actual = generation) (.generationMismatch name written actual) line
  | .expectLiveness name alive => do
      let id ← lookup name
      let live := (← quietly Act.heap).contains id
      match alive with
      | some true => expect live (.notAlive name) line
      | some false => expect (!live) (.notDead name) line
      | none => throw (.command .livenessWord line)

/-- Executes a line; a line without words does nothing. Faults of the line itself are those of
number `line`. -/
def execute (text : String) (line : Int) : ShellAct Unit := do
  modify fun sh => { sh with machine.journal := [] }
  match Text.words text with
  | [] => return
  | name :: arguments => do
      if (← get).echo then
        print s!"> {text}\n"
      match Command.ofWords line name arguments with
      | .ok command => run line command
      | .error e => throw e

/-- What the shell says about a fault; it writes the line itself. -/
def faultText : Fault → String
  | .command cause _ => cause.detail
  | fault => fault.message

/-- The line that a fault is reported under, if it was met on line `line`. -/
def faultLine (line : Int) : Fault → Int
  | .command _ own => if own ≥ 0 then own else line
  | _ => line

/-- Writes a notice. -/
def post (sh : Shell) (notice : Notice) : Shell :=
  { sh with machine.console := sh.machine.console.post notice }

/-- Executes one line by itself and reports a fault. The answer tells if there was none. -/
def runLine (sh : Shell) (text : String) : Bool × Shell :=
  match execute text (-1) sh with
  | .ok _ sh => (true, sh)
  | .error fault sh => (false, sh.post (.error (faultText fault) (-1)))

/-- Executes lines that are numbered from `line` on, up to the first that ends in a fault. -/
def runLines (sh : Shell) (line : Nat) : List String → Bool × Shell
  | [] => (true, sh)
  | text :: rest =>
      match execute text line sh with
      | .ok _ sh => sh.runLines (line + 1) rest
      | .error fault sh => (false, sh.post (.error (faultText fault) (faultLine line fault)))

/-- Executes the lines of a script up to the first that ends in a fault, and reports it. The answer
tells if there was none. -/
def runScript (sh : Shell) (source : String) : Bool × Shell :=
  sh.runLines 1 (Text.lines source)

/-- The shell with nothing on its console. -/
def clearConsole (sh : Shell) : Shell := { sh with machine.console := {} }

end Shell

end Reclaim
