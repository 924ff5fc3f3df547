import Reclaim.Text.Terminated

/-!
# Faults

Every way in which an operation can be refused, by cause, and the wording of each cause. A fault
carries the data that a caller can act on (the offending id, the resurrected ids, the line of a
command); `Fault.text` is the only place where the text is made, and `Fault.message` is what is
handed on of it.
-/

namespace Reclaim

/-- Handle of an object. Handles count up from one and are never given out twice, so zero is never
the handle of a live object. -/
abbrev ObjectId := Nat

/-- Why a reference to an object cannot be used. -/
inductive ReferenceFault where
  /-- No live object has the handle. -/
  | unknown
  /-- Only containers hold references. -/
  | notContainer
  /-- The host holds no reference that it could give back. -/
  | noRoot
  /-- The object `source` holds no reference to the object. -/
  | noEdge (source : ObjectId)
  /-- The object to be removed from the heap is not in it. -/
  | destroyUnknown
  /-- A cause in the caller's own words; the empty text stands for no cause. -/
  | described (detail : String)
  deriving DecidableEq

/-- Why a setting is refused. -/
inductive ConfigurationFault where
  /-- A threshold of zero would make a pass due at all times. -/
  | zeroThreshold (generation : Fin 3)
  /-- The tracker has no such generation. -/
  | generationRange (generation : Int)
  /-- A collection was asked for a generation that does not exist. -/
  | invalidGeneration (generation : Int)
  /-- A list of thresholds has too few or too many items. -/
  | thresholdCount
  /-- An item of a list of thresholds is not a numeral. -/
  | thresholdNumeral (item : String)
  /-- A cause in the caller's own words. -/
  | described (detail : String)
  deriving DecidableEq

/-- How the reference counts of a heap can contradict its references. -/
inductive CountFault where
  /-- A reference was given back on an object that had none. -/
  | underflow (id : ObjectId)
  /-- An object has more incoming references than its count admits. -/
  | belowEdges (id : ObjectId)
  /-- A cause in the caller's own words. -/
  | described (detail : String)
  deriving DecidableEq

/-- Why a command of the shell is refused, or why an expectation that it states fails. -/
inductive CommandFault where
  | unknownFlag (item : String)
  | notNumeral (text : String)
  | numeralRange (text : String)
  | argumentCount (command : String)
  | unknownName (name : String)
  | notBound (name : String)
  | policyWord
  | kindWord
  | finalizerWord
  | holderMissing
  | livenessWord
  | generationRange
  | unknownCommand (command : String)
  | collectedMismatch (expected actual : Nat)
  | generationMismatch (name expected : String) (actual : Int)
  | notAlive (name : String)
  | notDead (name : String)
  /-- A cause in the caller's own words. -/
  | described (detail : String)
  deriving DecidableEq

/-- The refusal of an operation. -/
inductive Fault where
  | invalidReference (id : ObjectId) (cause : ReferenceFault)
  | invalidConfiguration (cause : ConfigurationFault)
  /-- A pass was asked for while one is running. -/
  | reentrantCollection
  /-- A pass has reclaimed `collected` objects and left `ids` alive because finalizers made them
  reachable again. -/
  | resurrectionDetected (ids : List ObjectId) (collected : Nat)
  | inconsistentCount (cause : CountFault)
  /-- The refusal of a command; a negative line stands for a command that is not part of a
  script. -/
  | command (cause : CommandFault) (line : Int)
  /-- A numeral does not fit a machine word. -/
  | numeralOverflow
  /-- A failure raised by a hook or by the host, in its own words. -/
  | thrown (message : String)
  /-- The operation needs a collector and the heap has none. -/
  | collectorMissing
  deriving DecidableEq

namespace ReferenceFault

/-- The cause in words. -/
def detail : ReferenceFault → String
  | unknown => "unknown or freed object"
  | notContainer => "object is not a container"
  | noRoot => "no root reference to release"
  | noEdge source => s!"no edge from object #{source}"
  | destroyUnknown => "destroy of unknown object"
  | described text => text

end ReferenceFault

namespace ConfigurationFault

/-- The cause in words. -/
def detail : ConfigurationFault → String
  | zeroThreshold g => s!"threshold {g.val} must be positive"
  | generationRange g => s!"generation {g} out of range 0..2"
  | invalidGeneration g => s!"invalid generation {g}"
  | thresholdCount => "expected 3 thresholds"
  | thresholdNumeral item => s!"threshold '{item}' is not a number"
  | described text => text

end ConfigurationFault

namespace CountFault

/-- The cause in words. -/
def detail : CountFault → String
  | underflow id => s!"reference count underflow on object #{id}"
  | belowEdges id => s!"reference count of object #{id} is lower than its incoming edges"
  | described text => text

end CountFault

namespace CommandFault

/-- The cause in words. -/
def detail : CommandFault → String
  | unknownFlag item => s!"unknown debug flag '{item}'"
  | notNumeral text => s!"expected a non-negative number, got '{text}'"
  | numeralRange text => s!"number out of range: {text}"
  | argumentCount command => s!"wrong number of arguments to '{command}'"
  | unknownName name => s!"unknown name '{name}'"
  | notBound name => s!"'{name}' is not bound"
  | policyWord => "policy must be 'defer' or 'raise'"
  | kindWord => "object kind must be 'container' or 'atom'"
  | finalizerWord => "finalizer must be 'log' or 'resurrect'"
  | holderMissing => "finalizer resurrect needs a holder"
  | livenessWord => "expect takes 'alive' or 'dead'"
  | generationRange => "generation must be between 0 and 2"
  | unknownCommand command => s!"unknown command '{command}'"
  | collectedMismatch expected actual => s!"expected {expected} collected, got {actual}"
  | generationMismatch name expected actual =>
      s!"expected {name} in generation {expected}, found in {actual}"
  | notAlive name => s!"expected {name} to be alive"
  | notDead name => s!"expected {name} to be dead"
  | described text => text

end CommandFault

/-- An error text behind the line it belongs to; a negative line is not written. -/
def errorText (text : String) (line : Int) : String :=
  (if line ≥ 0 then s!"[line {line}] " else "") ++ "Error: " ++ text

namespace Fault

/-- The full text of a fault. -/
def text : Fault → String
  | invalidReference id cause =>
      s!"Invalid reference: object #{id}" ++
        (if cause.detail.isEmpty then "" else s!" ({cause.detail})")
  | invalidConfiguration cause => "Invalid configuration: " ++ cause.detail
  | reentrantCollection => "Reentrant collection: a collection pass is already running"
  | resurrectionDetected ids _ =>
      "Resurrection detected: " ++ ", ".intercalate (ids.map fun id => s!"#{id}")
  | inconsistentCount cause => cause.detail
  | command cause line => errorText cause.detail line
  | numeralOverflow => "stoull"
  | thrown text => text
  | collectorMissing => "no collector is attached"

/-- The text of a fault as it is handed on, which ends in front of the first NUL. -/
def message (fault : Fault) : String := Text.terminated fault.text

end Fault

end Reclaim
