/-!
# Items of a text

Cutting a text at a separator. The separator ends an item, so nothing follows the last one: a text
without a separator is one item, the empty text has none, and a separator at the very end adds none.
-/

namespace Reclaim.Text

/-- The stretches of characters that `sep` ends, and the last stretch if it is not empty. -/
def pieces (sep : Char) : List Char → List (List Char)
  | [] => []
  | c :: rest =>
      if c = sep then
        [] :: pieces sep rest
      else
        match pieces sep rest with
        | [] => [[c]]
        | piece :: more => (c :: piece) :: more

/-- The items of a text. -/
def items (sep : Char) (text : String) : List String :=
  (pieces sep text.toList).map String.ofList

/-- The lines of a text. -/
def lines (text : String) : List String := items '\n' text

end Reclaim.Text
