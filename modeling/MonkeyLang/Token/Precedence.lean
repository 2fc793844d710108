import MonkeyLang.Token.Kind

/-!
# Binding strength of operators

The operators of the language on a scale from weakest to tightest.  `Precedence.ofKind` gives the
strength with which a token ties what stands before it to what follows: the eight binary operators
have their own levels, an opening parenthesis ties the callee to its arguments, and every other
token ties nothing (`lowest`).
-/

namespace MonkeyLang

/-- A level of binding strength. -/
inductive Precedence where
  /-- No operator at all. -/
  | lowest
  /-- The operators `==` and `!=`. -/
  | equality
  /-- The operators `<` and `>`. -/
  | comparison
  /-- The operators `+` and `-`. -/
  | sum
  /-- The operators `*` and `/`. -/
  | product
  /-- The operators `!x` and `-x`. -/
  | unary
  /-- The call `f(x)`. -/
  | call
deriving DecidableEq, Repr, Inhabited

namespace Precedence

/-- The position on the scale; a tighter level has a larger one. -/
def rank : Precedence → Nat
  | lowest => 0
  | equality => 1
  | comparison => 2
  | sum => 3
  | product => 4
  | unary => 5
  | call => 6

instance : LT Precedence := ⟨fun p q => p.rank < q.rank⟩

instance : LE Precedence := ⟨fun p q => p.rank ≤ q.rank⟩

instance (p q : Precedence) : Decidable (p < q) := inferInstanceAs (Decidable (p.rank < q.rank))

instance (p q : Precedence) : Decidable (p ≤ q) := inferInstanceAs (Decidable (p.rank ≤ q.rank))

theorem lt_iff_rank {p q : Precedence} : p < q ↔ p.rank < q.rank := Iff.rfl

theorem le_iff_rank {p q : Precedence} : p ≤ q ↔ p.rank ≤ q.rank := Iff.rfl

theorem rank_inj {p q : Precedence} : p.rank = q.rank ↔ p = q := by
  cases p <;> cases q <;> decide

/-- The binding strength of a token that follows an operand. -/
def ofKind : Kind → Precedence
  | .equal | .notEqual => equality
  | .less | .greater => comparison
  | .plus | .minus => sum
  | .asterisk | .slash => product
  | .leftParen => call
  | _ => lowest

theorem ofKind_endOfInput : ofKind .endOfInput = lowest := rfl

end Precedence

end MonkeyLang
