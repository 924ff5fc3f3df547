import Reclaim.Text.Items

/-!
# The working directory

Paths are followed step by step through the directory that a run starts in, the directories above
it, and what every machine has at the top. The directory holds files only; of those between it and
the top nothing is known but that they are there. A directory can be opened like a file and then has
no text.
-/

namespace Reclaim

/-- The directory that a run starts in. -/
structure Directory where
  /-- The texts of its files, by name. -/
  files : List (String × String) := []
  /-- The number of steps from it up to the top. -/
  depth : Nat := 2

namespace Directory

/-- Where a part of a path leads to. -/
inductive Place where
  /-- The directory itself. -/
  | here
  /-- The directory that lies a number of steps above it, and below the top. -/
  | above (levels : Nat)
  | top
  /-- A directory right below the top. -/
  | standard (name : String)
  | file (text : String)
  deriving DecidableEq

/-- The longest path that can be followed, in bytes. -/
def pathLimit : Nat := 4095

/-- The directories right below the top. -/
def standardDirectories : List String :=
  ["bin", "boot", "dev", "etc", "home", "lib", "media", "mnt", "opt", "proc", "root", "run", "sbin",
    "srv", "sys", "tmp", "usr", "var"]

/-- The place a number of steps above the directory. -/
def ascend (d : Directory) (levels : Nat) : Place :=
  if levels < d.depth then .above levels else .top

/-- The directory that a directory lies in; the top lies in itself. -/
def parent (d : Directory) : Place → Place
  | .here => d.ascend 1
  | .above levels => d.ascend (levels + 1)
  | .top => .top
  | .standard _ => .top
  | .file text => .file text

/-- What is known under a name in a directory. The null device is a file without text. -/
def child? (d : Directory) : Place → String → Option Place
  | .here, name => (d.files.lookup name).map .file
  | .top, name => if name ∈ standardDirectories then some (.standard name) else none
  | .standard "dev", "null" => some (.file "")
  | _, _ => none

/-- One step of a path. The empty step stands for staying, as it lies between adjacent slashes;
nothing can be entered from a file. -/
def enter? (d : Directory) (place : Place) (step : String) : Option Place :=
  match place with
  | .file _ => none
  | _ =>
      if step ∈ ["", "."] then some place
      else if step = ".." then some (d.parent place)
      else d.child? place step

/-- The steps of a path. One that ends in a slash leads to a directory, so staying there is its last
step. -/
def steps (path : String) : List String :=
  Text.items '/' (if path.endsWith "/" then path ++ "." else path)

/-- Where a path leads to. A leading slash starts at the top. -/
def find? (d : Directory) (path : String) : Option Place :=
  if path.utf8ByteSize ≤ pathLimit then
    (steps path).foldlM d.enter? (if path.startsWith "/" then .top else .here)
  else
    none

/-- The text of a place. -/
def Place.text : Place → String
  | .file text => text
  | _ => ""

/-- The text that a path leads to; none if it cannot be opened. -/
def read? (d : Directory) (path : String) : Option String := (d.find? path).map Place.text

end Directory

end Reclaim
