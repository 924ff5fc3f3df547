import Reclaim.CommandLine

/-!
# The program

Reads arguments, files and lines and prints what the library answers.
-/

namespace Reclaim.Terminal

/-- Prints a console and leaves nothing on it. -/
def printConsole (console : Console) : IO Unit := do
  IO.print console.out
  IO.eprint console.err
  (← IO.getStdout).flush

/-- A line without the line feed that ends it; none at the end of the input. -/
def readLine? : IO (Option String) := do
  let line ← (← IO.getStdin).getLine
  if line.isEmpty then
    return none
  else if line.endsWith "\n" then
    return some (line.dropEnd 1).toString
  else
    return some line

/-- Works through the lines of standard input until the session is over. -/
def interact (start : Shell) : IO Unit := do
  let mut sh := start
  repeat
    printConsole sh.machine.console
    sh := sh.clearConsole
    match ← readLine? with
    | none =>
        printConsole (Repl.leave sh true).machine.console
        return
    | some line =>
        match Repl.feed sh line with
        | none =>
            printConsole (Repl.leave sh false).machine.console
            return
        | some next => sh := next

/-- The text behind an open handle; what cannot be read, as a directory cannot, has no text. -/
def readAll (handle : IO.FS.Handle) : IO String := do
  try
    handle.readToEnd
  catch _ =>
    return ""

/-- The text that a path leads to; none if it cannot be opened. -/
def readScript? (path : String) : IO (Option String) := do
  try
    return some (← readAll (← IO.FS.Handle.mk path .read))
  catch _ =>
    return none

end Reclaim.Terminal

open Reclaim Reclaim.Terminal

/-- The program: without a script the shell is interactive. -/
def main (args : List String) : IO UInt32 := do
  match CommandLine.ofArguments args with
  | .error refusal =>
      IO.eprint refusal.text
      return refusal.exit.toUInt32
  | .ok inv =>
      if inv.script.isEmpty then
        match CommandLine.openShell inv with
        | .error outcome =>
            printConsole outcome.console
            return outcome.exit.toUInt32
        | .ok sh =>
            interact (Repl.greet sh)
            return 0
      else
        let outcome := match ← readScript? inv.script with
          | none => CommandLine.unreadable inv.script
          | some source => CommandLine.runSource inv source
        printConsole outcome.console
        return outcome.exit.toUInt32
