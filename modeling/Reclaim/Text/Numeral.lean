/-!
# Numerals

Numbers are written in decimal digits and nothing else, and must fit a machine word of 64 bits.
Leading zeros are allowed.
-/

namespace Reclaim.Text

/-- The number that a list of digits stands for. -/
def digitsValue (digits : List Char) : Nat :=
  digits.foldl (fun n d => 10 * n + (d.toNat - '0'.toNat)) 0

/-- The number that a numeral stands for; a numeral has at least one digit and nothing but
digits. -/
def numeral? (text : String) : Option Nat :=
  let digits := text.toList
  if digits.isEmpty || digits.any (!·.isDigit) then none else some (digitsValue digits)

/-- The number of values that a machine word of 64 bits can have. -/
def wordSize : Nat := 18446744073709551616

/-- A number as a signed integer of 32 bits sees it: its high bits are lost. -/
def narrow (n : Nat) : Int := Int.bmod n 4294967296

end Reclaim.Text
