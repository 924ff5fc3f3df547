import Reclaim.Fault

/-!
# Console

The two texts that a run leaves behind: ordinary output, and what is said about errors. A notice
knows its own wording and to which of the two it belongs.
-/

namespace Reclaim

/-- Output so far. -/
structure Console where
  out : String := ""
  err : String := ""
  deriving DecidableEq

/-- Something to be told to whoever watches the run. -/
inductive Notice where
  /-- A failure, with the line of a script it belongs to; a negative line is not written. -/
  | error (text : String) (line : Int)
  | warning (text : String)
  | info (text : String)
  /-- Of interest while the collector itself is under examination; it is not written. -/
  | debug (text : String)
  deriving DecidableEq

namespace Console

/-- Adds ordinary output. -/
def print (c : Console) (text : String) : Console := { c with out := c.out ++ text }

/-- Adds to what is said about errors. -/
def complain (c : Console) (text : String) : Console := { c with err := c.err ++ text }

/-- Writes a notice on a line of its own. -/
def post (c : Console) : Notice → Console
  | .error text line => c.complain (errorText text line ++ "\n")
  | .warning text => c.complain s!"Warning: {text}\n"
  | .info text => c.print s!"Info: {text}\n"
  | .debug _ => c

end Console

end Reclaim
