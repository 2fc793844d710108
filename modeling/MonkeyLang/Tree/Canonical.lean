import MonkeyLang.Tree.Basic

/-!
# The canonical text of a tree

`Program.render` writes a program back as source text, in one fixed way: every unary and binary
operation between parentheses, statements and list items set apart by one space, a block between
braces that stand apart from what they enclose.

The separator between statements depends on the first of the two.  A binding and a result end in a
semicolon of their own.  A bare expression gets one only if another statement follows, so that
`a; (b)` is not read back as the call `a(b)`.
-/

namespace MonkeyLang

/-- Whether the canonical text of an expression brings its own parentheses. -/
def Expression.isParenthesized : Expression → Bool
  | .unary .. | .binary .. => true
  | _ => false

/-- Whether a statement is a bare expression. -/
def Statement.isExpression : Statement → Bool
  | .expression .. => true
  | _ => false

/-- The parameters of a function, separated by commas. -/
def renderParameters : List Identifier → String
  | [] => ""
  | [parameter] => parameter.name
  | parameter :: parameters => parameter.name ++ ", " ++ renderParameters parameters

mutual

/-- The canonical text of an expression. -/
def Expression.render : Expression → String
  | .identifier name => name.name
  | .integer token _ => token.literal
  | .boolean _ value => if value then "true" else "false"
  | .unary _ operator operand => "(" ++ operator ++ operand.render ++ ")"
  | .binary _ left operator right =>
    "(" ++ left.render ++ " " ++ operator ++ " " ++ right.render ++ ")"
  | .conditional _ condition consequence alternative =>
    "if " ++
      (if condition.isParenthesized then condition.render else "(" ++ condition.render ++ ")") ++
      " " ++ consequence.render ++ renderAlternative alternative
  | .function token parameters body =>
    token.literal ++ "(" ++ renderParameters parameters ++ ") " ++ body.render
  | .call _ callee arguments => callee.render ++ "(" ++ renderArguments arguments ++ ")"

/-- The canonical text of a block. -/
def Block.render : Block → String
  | ⟨_, statements⟩ =>
    if statements.isEmpty then "\x7b \x7d" else "\x7b " ++ renderStatements statements ++ " \x7d"

/-- The canonical text of a statement. -/
def Statement.render : Statement → String
  | .binding token name value => token.literal ++ " " ++ name.name ++ " = " ++ value.render ++ ";"
  | .result token value => token.literal ++ " " ++ value.render ++ ";"
  | .expression _ value => value.render
  | .block body => body.render

/-- The second block of a choice, if there is one. -/
def renderAlternative : Option Block → String
  | none => ""
  | some block => " else " ++ block.render

/-- The arguments of a call, separated by commas. -/
def renderArguments : List Expression → String
  | [] => ""
  | [argument] => argument.render
  | argument :: arguments => argument.render ++ ", " ++ renderArguments arguments

/-- The statements of a block or program, separated by spaces. -/
def renderStatements : List Statement → String
  | [] => ""
  | [statement] => statement.render
  | statement :: statements =>
    statement.render ++ (if statement.isExpression then "; " else " ") ++
      renderStatements statements

end

/-- The canonical text of a program. -/
def Program.render (program : Program) : String := renderStatements program.statements

end MonkeyLang
