import Reclaim.Settings
import Reclaim.Text.Items
import Reclaim.Text.Numeral

/-!
# Settings in writing

Lists of debug flags and of thresholds, with commas between their items.
-/

namespace Reclaim

namespace DebugFlags

/-- The flags that a word stands for. -/
def ofWord? : String → Option DebugFlags
  | "stats" => some stats
  | "collectable" => some collectable
  | "uncollectable" => some uncollectable
  | "saveall" => some saveAll
  | "leak" => some leak
  | "none" => some .none
  | "" => some .none
  | _ => Option.none

/-- The flags that a list of words stands for together. -/
def ofText (text : String) : Except Fault DebugFlags :=
  (Text.items ',' text).foldlM (fun flags word =>
    match ofWord? word with
    | some more => .ok (flags.union more)
    | Option.none => .error (.command (.unknownFlag word) (-1))) .none

end DebugFlags

namespace Thresholds

/-- The count that one item of a list of thresholds stands for. -/
def countOfItem (item : String) : Except Fault Nat :=
  match Text.numeral? item with
  | none => .error (.invalidConfiguration (.thresholdNumeral item))
  | some n => if n < Text.wordSize then .ok n else .error .numeralOverflow

/-- The thresholds that a list of three numerals stands for. The first three items are read before
their number is checked. -/
def ofText (text : String) : Except Fault Thresholds := do
  let items := Text.items ',' text
  match ← (items.take 3).mapM countOfItem, items.drop 3 with
  | [young, middle, old], [] => ofCounts #v[young, middle, old]
  | _, _ => throw (.invalidConfiguration .thresholdCount)

end Thresholds

end Reclaim
