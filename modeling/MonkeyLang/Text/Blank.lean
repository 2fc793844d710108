/-!
# Blank text

The characters with the Unicode property White_Space, of which there are twenty-five.  A text is
blank if it holds no other character.
-/

namespace MonkeyLang

/-- The ranges of code points with the property White_Space, both ends included. -/
def whiteSpaceRanges : List (Nat × Nat) :=
  [(0x0009, 0x000D), (0x0020, 0x0020), (0x0085, 0x0085), (0x00A0, 0x00A0), (0x1680, 0x1680),
    (0x2000, 0x200A), (0x2028, 0x2029), (0x202F, 0x202F), (0x205F, 0x205F), (0x3000, 0x3000)]

/-- Whether a character has the property White_Space. -/
def isWhiteSpace (c : Char) : Bool :=
  whiteSpaceRanges.any fun (first, last) => decide (first ≤ c.toNat) && decide (c.toNat ≤ last)

/-- Whether a text consists of white space only. -/
def isBlank (text : String) : Bool := text.toList.all isWhiteSpace

/-- The core library's notion of white space is a part of it. -/
theorem isWhiteSpace_of_isWhitespace {c : Char} (h : c.isWhitespace) : isWhiteSpace c := by
  simp only [Char.isWhitespace, Bool.or_eq_true, decide_eq_true_eq] at h
  rcases h with ((rfl | rfl) | rfl) | rfl <;> rfl

end MonkeyLang
