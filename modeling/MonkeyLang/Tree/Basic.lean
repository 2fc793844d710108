import MonkeyLang.Token.Basic

/-!
# Programs as trees

The abstract form of a source text.  Grouping parentheses leave no trace in a tree; every node keeps
the token that it was read from, so a tree still says where each of its parts stood.

`Expression.token`, `Statement.token` and `Block.token` give that token.  A binary operation keeps
its operator, a call its opening parenthesis, and a bare expression that is used as a statement the
first token of the statement, which may be a parenthesis that the tree has forgotten.
-/

namespace MonkeyLang

/-- A name, as it is bound or used. -/
structure Identifier where
  /-- The token that was read. -/
  token : Token
  /-- The name itself. -/
  name : String
deriving DecidableEq, Repr

mutual

/-- An expression. -/
inductive Expression where
  /-- A name that is used for its value. -/
  | identifier (name : Identifier)
  /-- An integer literal and its value. -/
  | integer (token : Token) (value : Int)
  /-- One of the two truth values. -/
  | boolean (token : Token) (value : Bool)
  /-- An operator before its operand. -/
  | unary (token : Token) (operator : String) (operand : Expression)
  /-- An operator between its operands. -/
  | binary (token : Token) (left : Expression) (operator : String) (right : Expression)
  /-- A choice between two blocks, of which the second may be missing. -/
  | conditional (token : Token) (condition : Expression) (consequence : Block)
      (alternative : Option Block)
  /-- A function with its parameters and its body. -/
  | function (token : Token) (parameters : List Identifier) (body : Block)
  /-- An application of a function to arguments. -/
  | call (token : Token) (callee : Expression) (arguments : List Expression)
deriving Repr

/-- A sequence of statements between braces. -/
inductive Block where
  /-- The opening brace and the statements. -/
  | mk (token : Token) (statements : List Statement)
deriving Repr

/-- A statement. -/
inductive Statement where
  /-- A name is bound to a value. -/
  | binding (token : Token) (name : Identifier) (value : Expression)
  /-- A value is handed back. -/
  | result (token : Token) (value : Expression)
  /-- A bare expression. -/
  | expression (token : Token) (value : Expression)
  /-- A block that stands by itself. -/
  | block (body : Block)
deriving Repr

end

/-- A whole program: its statements in the order of the source. -/
structure Program where
  /-- The statements at top level. -/
  statements : List Statement
deriving Repr

/-- The opening brace of a block. -/
def Block.token : Block → Token
  | ⟨token, _⟩ => token

/-- The statements of a block. -/
def Block.statements : Block → List Statement
  | ⟨_, statements⟩ => statements

/-- The token that an expression was read from. -/
def Expression.token : Expression → Token
  | .identifier name => name.token
  | .integer token _ => token
  | .boolean token _ => token
  | .unary token _ _ => token
  | .binary token _ _ _ => token
  | .conditional token _ _ _ => token
  | .function token _ _ => token
  | .call token _ _ => token

/-- The token that a statement was read from. -/
def Statement.token : Statement → Token
  | .binding token _ _ => token
  | .result token _ => token
  | .expression token _ => token
  | .block body => body.token

/-- The text of the token that a program begins with, empty for the empty program. -/
def Program.tokenLiteral (program : Program) : String :=
  match program.statements with
  | [] => ""
  | statement :: _ => statement.token.literal

end MonkeyLang
