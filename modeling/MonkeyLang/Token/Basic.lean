import MonkeyLang.Location
import MonkeyLang.Token.Kind

/-!
# Tokens

A `Token` is a kind with the text it was read from and the place where that text begins.
`Token.description` is the phrase by which a diagnostic refers to a token: the kinds without a fixed
spelling are followed by the literal text between quotes.
-/

namespace MonkeyLang

/-- A classified piece of source text. -/
structure Token where
  /-- The lexical category. -/
  kind : Kind
  /-- The text of the token, as it was written. -/
  literal : String
  /-- The place of the first character. -/
  location : Location
deriving DecidableEq, Repr, Inhabited

namespace Token

/-- The token that stands for the end of the input; its text is empty. -/
def endOfInput (location : Location) : Token := ⟨.endOfInput, "", location⟩

/-- The phrase by which a diagnostic refers to a token. -/
def description (token : Token) : String :=
  match token.kind with
  | .identifier | .integer | .illegal => token.kind.description ++ " '" ++ token.literal ++ "'"
  | kind => kind.description

end Token

end MonkeyLang
