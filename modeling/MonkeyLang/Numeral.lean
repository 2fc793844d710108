/-!
# Decimal numerals

The value of a run of decimal digits, of any length and with any number of leading zeros, and the
largest value that an integer literal may have.
-/

namespace MonkeyLang

/-- The value of one decimal digit. -/
def digitValue (c : Char) : Nat := c.toNat - '0'.toNat

/-- The value of a run of decimal digits, the most significant first. -/
def numeralValue (digits : List Char) : Nat :=
  digits.foldl (fun value c => 10 * value + digitValue c) 0

/-- The largest integer that fits into 64 bits with a sign, which is one less than the power of two
with exponent 63. -/
def maxInteger : Nat := 9223372036854775807

@[simp] theorem numeralValue_nil : numeralValue [] = 0 := rfl

/-- One more digit on the right is ten times the value and the digit. -/
theorem numeralValue_concat (digits : List Char) (c : Char) :
    numeralValue (digits ++ [c]) = 10 * numeralValue digits + digitValue c := by
  simp [numeralValue]

end MonkeyLang
