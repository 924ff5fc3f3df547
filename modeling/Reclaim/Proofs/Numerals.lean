import Reclaim.Text.Numeral

/-!
# Numerals and their numbers

A numeral is a text of decimal digits, at least one, with any number of leading zeros
(`Text.Denotes`). Numerals are read as what they denote and nothing else is read
(`Text.numeral?_eq_some_iff`); in particular a number is read back from its decimal notation
(`Text.denotes_repr`). A number that is narrowed to a signed integer of 32 bits is small just if it
has the same residue (`Text.narrow_eq_iff`).
-/

set_option autoImplicit false

namespace Reclaim.Text

variable {text : String} {n : Nat}

/-- A text of decimal digits denotes the number that has these digits. -/
structure Denotes (text : String) (n : Nat) : Prop where
  nonempty : text ≠ ""
  digits : ∀ c ∈ text.toList, c.isDigit = true
  value : Nat.ofDigitChars 10 text.toList 0 = n

/-- Exactly the numerals are read, as what they denote. -/
theorem numeral?_eq_some_iff : numeral? text = some n ↔ Denotes text n := by
  have value : digitsValue text.toList = Nat.ofDigitChars 10 text.toList 0 := rfl
  unfold numeral?
  simp only [Option.ite_none_left_eq_some, Bool.or_eq_true, List.any_eq_true, not_or, not_exists,
    not_and, Bool.not_eq_true', Bool.not_eq_false, List.isEmpty_iff, value, Option.some.injEq]
  constructor
  · rintro ⟨⟨nonempty, digits⟩, value⟩
    exact ⟨fun e => nonempty (e ▸ rfl), digits, value⟩
  · rintro ⟨nonempty, digits, value⟩
    exact ⟨⟨fun e => nonempty (String.toList_inj.mp e), digits⟩, value⟩

/-- The decimal notation of a number denotes it. -/
theorem denotes_repr (n : Nat) : Denotes (toString n) n where
  nonempty := Nat.repr_ne_empty
  digits c hc := by
    rw [Nat.toString_eq_repr, Nat.toList_repr] at hc
    exact Nat.isDigit_of_mem_toDigits (by decide) (by decide) hc
  value := by
    rw [Nat.toString_eq_repr, Nat.toList_repr, Nat.ofDigitChars_ten_toDigits]

/-- A numeral holds no character that is no digit. -/
theorem Denotes.not_mem {c : Char} (denotes : Denotes text n) (other : c.isDigit = false) :
    c ∉ text.toList := by
  intro mem
  have digit := denotes.digits c mem
  rw [other] at digit
  cases digit

/-- A number is narrowed to a small one just if both have the same residue. -/
theorem narrow_eq_iff {i : Int} (lower : -2147483648 ≤ i) (upper : i < 2147483648) :
    narrow n = i ↔ (n : Int) % 4294967296 = i % 4294967296 := by
  constructor
  · rintro rfl
    exact Int.bmod_emod.symm
  · intro same
    calc narrow n
        = Int.bmod ((n : Int) % 4294967296) 4294967296 := (Int.emod_bmod n 4294967296).symm
      _ = Int.bmod (i % 4294967296) 4294967296 := by rw [same]
      _ = Int.bmod i 4294967296 := Int.emod_bmod i 4294967296
      _ = i := Int.bmod_eq_of_le (by omega) (by omega)

end Reclaim.Text
