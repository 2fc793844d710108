import MonkeyLang.Token.Basic

/-!
# What can be wrong with a source text

A `Fault` is one reason why a statement could not be read.  It keeps the token that gave it away, so
the place of a fault (`Fault.location`) is the place of a token of the source, and its wording
(`Fault.message`) is computed from its cause.
-/

namespace MonkeyLang

/-- A reason why a statement could not be read. -/
inductive Fault where
  /-- A token of one kind had to follow, and another one was found. -/
  | unexpected (wanted : Kind) (found : Token)
  /-- An operand had to begin, and the token found begins none. -/
  | noOperand (found : Token)
  /-- The value of an integer literal does not fit into 64 bits with a sign. -/
  | tooLarge (literal : Token)
  /-- So many expressions were already open when one more had to begin at the token found. -/
  | tooDeep (levels : Nat) (found : Token)
deriving DecidableEq, Repr

namespace Fault

/-- The token that gave the fault away. -/
def token : Fault → Token
  | unexpected _ found => found
  | noOperand found => found
  | tooLarge literal => literal
  | tooDeep _ found => found

/-- The place of a fault. -/
def location (fault : Fault) : Location := fault.token.location

/-- The wording of a fault. -/
def message : Fault → String
  | unexpected wanted found =>
    "expected " ++ wanted.description ++ ", found " ++ found.description
  | noOperand found => "no prefix parse function for " ++ found.kind.description ++ " found"
  | tooLarge literal => "could not parse '" ++ literal.literal ++ "' as integer"
  | tooDeep levels _ => "expression nested more than " ++ levels.repr ++ " levels deep"

end Fault

end MonkeyLang
