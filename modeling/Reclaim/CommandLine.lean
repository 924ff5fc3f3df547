import Reclaim.Directory
import Reclaim.Shell.Session

/-!
# The command line

Arguments say what the collector starts with and which script to run; without a script the shell is
interactive. `CommandLine.run` gives the whole run as a function of the arguments, the directory it
starts in, and standard input.
-/

namespace Reclaim

namespace CommandLine

/-- The name that the program goes by. -/
def program : String := "rcgc"

/-- How the program is to be called. -/
def usage : String :=
  s!"Usage: {program} [options] [script]\n" ++
  "  Options:\n" ++
  "    -t, --threshold  Collection thresholds t0,t1,t2 (default: 700,10,10)\n" ++
  "    -d, --disable    Start with automatic collection disabled\n" ++
  "    -g, --debug      Debug flags: stats,collectable,uncollectable,saveall,leak\n" ++
  "    -r, --raise      Report resurrected objects as errors\n" ++
  "    -v, --verbose    Echo every command executed\n" ++
  "    -h, --help       Print this help message\n" ++
  "  Run without arguments to start REPL\n"

/-- What the arguments ask for. -/
structure Invocation where
  settings : Settings := {}
  verbose : Bool := false
  /-- The script to run; the empty path stands for none. -/
  script : String := ""

/-- The end of a run that never starts: an exit code and what is said about it. -/
structure Refusal where
  exit : Nat
  text : String
  deriving DecidableEq

/-- The end of a whole run. -/
structure Outcome where
  exit : Nat
  console : Console
  deriving DecidableEq

/-- A refusal in words of its own, with the usage. -/
def Refusal.withUsage (text : String) : Refusal := ⟨1, text ++ "\n" ++ usage⟩

/-- A refusal of an option that stands last. -/
def Refusal.missingValue (option : String) : Refusal :=
  ⟨1, s!"Error: {option} option requires an argument\n"⟩

/-- Accepts a value that was read, or refuses with its fault. -/
def accept : Except Fault α → Except Refusal α
  | .ok a => .ok a
  | .error fault => .error (.withUsage fault.message)

/-- Takes the script from an argument that is no option. -/
def Invocation.takeScript (inv : Invocation) (path : String) : Except Refusal Invocation :=
  if inv.script.isEmpty then .ok { inv with script := path }
  else .error (.withUsage "Too many arguments")

/-- Reads arguments from the first to the last; if `literal`, none of them is an option. -/
def read (inv : Invocation) (literal : Bool) : List String → Except Refusal Invocation
  | [] => .ok inv
  | arg :: rest =>
      if literal then do
        read (← inv.takeScript arg) true rest
      else if arg = "-v" ∨ arg = "--verbose" then
        read { inv with verbose := true } false rest
      else if arg = "-d" ∨ arg = "--disable" then
        read { inv with settings.enabled := false } false rest
      else if arg = "-r" ∨ arg = "--raise" then
        read { inv with settings.policy := .raise } false rest
      else if arg = "-t" ∨ arg = "--threshold" then
        match rest with
        | [] => .error (.missingValue "-t")
        | value :: rest => do
            let thresholds ← accept (Thresholds.ofText value)
            read { inv with settings.thresholds := thresholds.counts } false rest
      else if arg = "-g" ∨ arg = "--debug" then
        match rest with
        | [] => .error (.missingValue "-g")
        | value :: rest => do
            let flags ← accept (DebugFlags.ofText value)
            read { inv with settings.debug := flags } false rest
      else if arg = "-h" ∨ arg = "--help" then
        .error ⟨0, usage⟩
      else if arg = "--" then
        read inv true rest
      else if arg.startsWith "-" then
        .error (.withUsage s!"Unknown option: {arg}")
      else do
        read (← inv.takeScript arg) false rest

/-- Reads the arguments of a process, each of which ends in front of its first NUL. -/
def ofArguments (args : List String) : Except Refusal Invocation :=
  read {} false (args.map Text.terminated)

end CommandLine

namespace Repl

/-- The first line of an interactive session. -/
def banner : String := "rcgc shell - Type 'exit' to quit\n"

/-- What invites the next line. -/
def prompt : String := "> "

/-- The last line of an interactive session. -/
def farewell : String := "Goodbye!\n"

/-- The shell with more ordinary output. -/
def say (sh : Shell) (text : String) : Shell :=
  { sh with machine.console := sh.machine.console.print text }

/-- Starts a session and asks for its first line. -/
def greet (sh : Shell) : Shell := say (say sh banner) prompt

/-- Takes a line and asks for the next one; none if the session is over. Empty lines are passed
over. -/
def feed (sh : Shell) (line : String) : Option Shell :=
  if line = "exit" ∨ line = "quit" then none
  else if line.isEmpty then some (say sh prompt)
  else some (say (sh.runLine line).2 prompt)

/-- Ends a session; the end of the input ends the last line as well. -/
def leave (sh : Shell) (atEnd : Bool) : Shell :=
  say (if atEnd then say sh "\n" else sh) farewell

/-- A session over some lines, up to the one that ends it. -/
def session (sh : Shell) : List String → Shell
  | [] => leave sh true
  | line :: rest =>
      match feed sh line with
      | none => leave sh false
      | some sh => session sh rest

end Repl

namespace CommandLine

/-- The end of a run that cannot go on. -/
def failure (text : String) : Outcome := ⟨1, Console.post {} (.error text (-1))⟩

/-- The end of a run whose script cannot be read. -/
def unreadable (path : String) : Outcome := failure s!"Could not open file: {path}"

/-- The shell that a run starts with. The thresholds of an invocation that was read from arguments
are positive, so it starts. -/
def openShell (inv : Invocation) : Except Outcome Shell :=
  match Shell.start inv.settings inv.verbose with
  | .ok sh => .ok sh
  | .error fault => .error (failure fault.message)

/-- Runs the text of a script. -/
def runSource (inv : Invocation) (source : String) : Outcome :=
  match openShell inv with
  | .error outcome => outcome
  | .ok sh =>
      let (succeeded, sh) := sh.runScript source
      ⟨if succeeded then 0 else 1, sh.machine.console⟩

/-- The whole run of the program. -/
def run (args : List String) (directory : Directory) (input : String) : Outcome :=
  match ofArguments args with
  | .error refusal => ⟨refusal.exit, Console.complain {} refusal.text⟩
  | .ok inv =>
      if inv.script.isEmpty then
        match openShell inv with
        | .error outcome => outcome
        | .ok sh => ⟨0, (Repl.session (Repl.greet sh) (Text.lines input)).machine.console⟩
      else
        match directory.read? inv.script with
        | none => unreadable inv.script
        | some source => runSource inv source

end CommandLine

end Reclaim
