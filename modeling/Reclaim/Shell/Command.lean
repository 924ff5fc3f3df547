import Reclaim.Script
import Reclaim.Text.Settings
import Reclaim.Text.Words

/-!
# Commands of the shell

What a line of words says. Reading a command settles everything that the words alone decide: the
number of arguments, the numerals, and the words with a fixed choice. What depends on the names that
the shell knows is left to the command's run, also where a word that is no choice comes after a
name, as the name is looked up first.
-/

namespace Reclaim

/-- What the finalizer installed by a command does. -/
inductive FinalizerWord where
  /-- It says that the object is being finalized. -/
  | log
  /-- It gives the object bound to `holder` a reference to the dying one as well. -/
  | resurrect (holder : Option String)
  | unknown

/-- A command of the shell. -/
inductive Command where
  | new (name : String) (kind : Kind) (typeName : String)
  | bind (name other : String)
  | del (name : String)
  | link (source target : String)
  | unlink (source target : String)
  | finalizer (name : String) (word : FinalizerWord)
  | collect (generation : Option Generation)
  | enable
  | disable
  | threshold (counts : PerGeneration Nat)
  | debug (flags : DebugFlags)
  | policy (policy : ResurrectionPolicy)
  | describe (name : String)
  | tracked
  | count
  | stats
  | garbage
  | clearGarbage
  | expectCollected (count : Nat)
  /-- The generation is given as it was written and as a signed number. -/
  | expectTracked (name written : String) (generation : Int)
  /-- The expectation is whether the object is live; none if the word for it is no choice. -/
  | expectLiveness (name : String) (alive : Option Bool)

namespace Command

/-- The count that an argument stands for. -/
def readCount (line : Int) (text : String) : Except Fault Nat :=
  match Text.numeral? text with
  | none => .error (.command (.notNumeral text) line)
  | some n => if n < Text.wordSize then .ok n else .error (.command (.numeralRange text) line)

/-- The kind that an argument stands for. -/
def readKind (line : Int) : String → Except Fault Kind
  | "container" => .ok .container
  | "atom" => .ok .atom
  | _ => .error (.command .kindWord line)

/-- The policy that an argument stands for. -/
def readPolicy (line : Int) : String → Except Fault ResurrectionPolicy
  | "defer" => .ok .defer
  | "raise" => .ok .raise
  | _ => .error (.command .policyWord line)

/-- The generation that an argument stands for. -/
def readGeneration (line : Int) (text : String) : Except Fault Generation := do
  match Generation.ofInt? (← readCount line text) with
  | some g => return g
  | none => throw (.command .generationRange line)

/-- What the words behind the name in a finalizer command stand for. -/
def readFinalizer : String → Option String → FinalizerWord
  | "log", _ => .log
  | "resurrect", holder => .resurrect holder
  | _, _ => .unknown

/-- The liveness that an argument stands for. -/
def readLiveness : String → Option Bool
  | "alive" => some true
  | "dead" => some false
  | _ => none

/-- The command that its name and arguments stand for; faults are those of a given line. Three
thresholds are read from the last to the first. -/
def ofWords (line : Int) : String → List String → Except Fault Command
  | "new", [name, kind] => do
      let kind ← readKind line kind
      return .new name kind kind.name
  | "new", [name, kind, typeName] => return .new name (← readKind line kind) typeName
  | "bind", [name, other] => return .bind name other
  | "del", [name] => return .del name
  | "link", [source, target] => return .link source target
  | "unlink", [source, target] => return .unlink source target
  | "finalizer", [name, word] => return .finalizer name (readFinalizer word none)
  | "finalizer", [name, word, holder] => return .finalizer name (readFinalizer word holder)
  | "collect", [] => return .collect none
  | "collect", [numeral] => return .collect (← readGeneration line numeral)
  | "enable", _ => return .enable
  | "disable", _ => return .disable
  | "threshold", [young, middle, old] => do
      let old ← readCount line old
      let middle ← readCount line middle
      let young ← readCount line young
      return .threshold #v[young, middle, old]
  | "debug", [text] => return .debug (← DebugFlags.ofText text)
  | "policy", [word] => return .policy (← readPolicy line word)
  | "show", [name] => return .describe name
  | "tracked", _ => return .tracked
  | "count", _ => return .count
  | "stats", _ => return .stats
  | "garbage", _ => return .garbage
  | "clear-garbage", _ => return .clearGarbage
  | "expect-collected", [numeral] => return .expectCollected (← readCount line numeral)
  | "expect-tracked", [name, numeral] => do
      return .expectTracked name numeral (Text.narrow (← readCount line numeral))
  | "expect", [name, word] => return .expectLiveness name (readLiveness word)
  | name, _ =>
      if name ∈ ["new", "bind", "del", "link", "unlink", "finalizer", "collect", "threshold",
          "debug", "policy", "show", "expect-collected", "expect-tracked", "expect"] then
        throw (.command (.argumentCount name) line)
      else
        throw (.command (.unknownCommand name) line)

end Command

end Reclaim
