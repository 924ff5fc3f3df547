/-!
# Terminated texts

A text that is handed on as a terminated one ends in front of its first NUL.
-/

namespace Reclaim.Text

/-- The part of a text in front of its first NUL. -/
def terminated (text : String) : String := String.ofList (text.toList.takeWhile (· != '\x00'))

end Reclaim.Text
