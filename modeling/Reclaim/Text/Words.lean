/-!
# Words of a line

A line of commands is read as words with white space between them; everything from the first number
sign on is a comment. White space is the space and the five controls from tab to carriage return.
-/

namespace Reclaim.Text

/-- The characters that separate words. -/
def isBlank (c : Char) : Bool := c = ' ' || ('\t' ≤ c && c ≤ '\r')

/-- The longest stretches without blanks, in order. -/
def stretches : List Char → List (List Char)
  | [] => []
  | c :: rest =>
      if isBlank c then
        stretches rest
      else
        match rest, stretches rest with
        | d :: _, stretch :: more =>
            if isBlank d then [c] :: stretch :: more else (c :: stretch) :: more
        | _, more => [c] :: more

/-- The part of a line in front of its comment. -/
def code (line : List Char) : List Char := line.takeWhile (· != '#')

/-- The words of a line. -/
def words (line : String) : List String :=
  (stretches (code line.toList)).map String.ofList

end Reclaim.Text
