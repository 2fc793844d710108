import MonkeyLang.Numeral
import MonkeyLang.Parser.Statement

/-!
# Expressions

An expression is an operand followed by operators.  `foldFrom` folds operators into the operand
on their left as long as they bind tighter than the caller asks for; the right operand of a binary
operator is read at the operator's own strength, so that operators of equal strength group to the
left.  A call is an operator like the others, with a list of arguments in place of the right
operand.

`expressionWithin` ties the knot.  It may open only so many expressions inside of one another; when
none is left it finds the fault `tooDeep` without moving.  `expression limit` is the parser that is
used at a position where some expressions are open already.
-/

namespace MonkeyLang.Parser

section
variable (expr : Precedence → Parser Expression)

/-! ### Operands -/

/-- An integer literal, if its value is in range. -/
def integer (token : Token) : Parser Expression :=
  let value := numeralValue token.literal.toList
  if value ≤ maxInteger then pure (.integer token value) else fail (.tooLarge token)

/-- An operator before its operand, read from the operator on. -/
def unary (token : Token) : Parser Expression := do
  advance
  let operand ← expr .unary
  pure (.unary token token.literal operand)

/-- An expression in parentheses, which only group and leave no node. -/
def group : Parser Expression := do
  advance
  let inner ← expr .lowest
  let _ ← expect .rightParen
  pure inner

/-- A choice, read from its keyword on. -/
def conditional (token : Token) : Parser Expression := do
  let _ ← expect .leftParen
  advance
  let condition ← expr .lowest
  let _ ← expect .rightParen
  let _ ← expect .leftBrace
  let consequence ← block expr
  if ← peekIs .elseWord then
    advance
    let _ ← expect .leftBrace
    let alternative ← block expr
    pure (.conditional token condition consequence (some alternative))
  else
    pure (.conditional token condition consequence none)

/-- A parameter of a function. -/
def parameter : Parser Identifier := do
  let token ← expect .identifier
  pure ⟨token, token.literal⟩

/-- A function, read from its keyword on. -/
def function (token : Token) : Parser Expression := do
  let _ ← expect .leftParen
  let parameters ← listed parameter
  let _ ← expect .leftBrace
  let body ← block expr
  pure (.function token parameters body)

/-- An expression without operators behind it. -/
def operand : Parser Expression := do
  let token ← current
  match token.kind with
  | .identifier => pure (.identifier ⟨token, token.literal⟩)
  | .integer => integer token
  | .trueWord => pure (.boolean token true)
  | .falseWord => pure (.boolean token false)
  | .bang | .minus => unary expr token
  | .leftParen => group expr
  | .ifWord => conditional expr token
  | .functionWord => function expr token
  | _ => fail (.noOperand token)

/-! ### Operators -/

/-- An argument of a call, behind the parenthesis or comma under the reading head. -/
def argument : Parser Expression := do
  advance
  expr .lowest

/-- The operator under the reading head with what stands on its left, and with what it takes on its
right. -/
def operation (left : Expression) : Parser Expression := do
  let token ← current
  if token.kind = .leftParen then
    let arguments ← listed (argument expr)
    pure (.call token left arguments)
  else
    advance
    let right ← expr (.ofKind token.kind)
    pure (.binary token left token.literal right)

/-- Folds the operators ahead that bind tighter than `bound` into the operand on their left. -/
def foldFrom (bound : Precedence) (left : Expression) (state : State) :
    Except Fault Expression × State :=
  if _ : bound < .ofKind state.peek.kind then
    let step := (operation expr left).run state.advance
    match step.1 with
    | .ok whole => foldFrom bound whole step.2
    | .error fault => (.error fault, step.2)
  else (.ok left, state)
termination_by state.tokens.length
decreasing_by
  rename_i tighter
  have shorter := (operation expr left).length_le state.advance
  have two := state.two_le_length_of_peek fun ended => by
    rw [ended] at tighter
    exact Nat.not_lt_zero _ tighter
  have advanced := state.length_advance
  omega

theorem foldFrom_of_weak {bound : Precedence} {left : Expression} {state : State}
    (h : ¬bound < .ofKind state.peek.kind) :
    foldFrom expr bound left state = (.ok left, state) := by
  rw [foldFrom, dif_neg h]

theorem foldFrom_of_ok {bound : Precedence} {left whole : Expression} {state later : State}
    (h : bound < .ofKind state.peek.kind)
    (step : (operation expr left).run state.advance = (.ok whole, later)) :
    foldFrom expr bound left state = foldFrom expr bound whole later := by
  rw [foldFrom, dif_pos h, step]

theorem foldFrom_of_error {bound : Precedence} {left : Expression} {state later : State}
    {fault : Fault} (h : bound < .ofKind state.peek.kind)
    (step : (operation expr left).run state.advance = (.error fault, later)) :
    foldFrom expr bound left state = (.error fault, later) := by
  rw [foldFrom, dif_pos h, step]

/-- Folding operators does not move back. -/
theorem foldFrom_reaches (bound : Precedence) (left : Expression) (state : State) :
    state.Reaches (foldFrom expr bound left state).2 := by
  fun_induction foldFrom expr bound left state with
  | case1 left state _ step whole _ ih =>
    exact ((State.Reaches.refl state).advance.trans ((operation expr left).reaches _)).trans ih
  | case2 left state =>
    exact (State.Reaches.refl state).advance.trans ((operation expr left).reaches _)
  | case3 left state => exact .refl state

/-- The operators ahead that bind tighter than `bound`, with `left` as the first operand. -/
def fold (bound : Precedence) (left : Expression) : Parser Expression :=
  ⟨foldFrom expr bound left, foldFrom_reaches expr bound left⟩

/-- If the token ahead binds tighter, its operation comes first, and then the operators behind. -/
theorem fold_eq (bound : Precedence) (left : Expression) :
    fold expr bound left = (do
      if ← look fun state => decide (bound < .ofKind state.peek.kind) then
        advance
        let whole ← operation expr left
        fold expr bound whole
      else pure left) := by
  ext1 state
  show foldFrom expr bound left state = _
  rw [run_bind_ok _ (run_look _ state)]
  by_cases tighter : bound < .ofKind state.peek.kind
  · rw [if_pos (decide_eq_true tighter), run_bind_ok _ (run_advance state)]
    cases step : (operation expr left).run state.advance with
    | mk outcome later =>
      cases outcome with
      | error fault => rw [foldFrom_of_error expr tighter step, run_bind_error _ step]
      | ok whole =>
        rw [foldFrom_of_ok expr tighter step, run_bind_ok _ step]
        rfl
  · rw [foldFrom_of_weak expr tighter, if_neg (by simpa using tighter), run_pure]

/-- An operand and the operators behind it that bind tighter than `bound`. -/
def operators (bound : Precedence) : Parser Expression := do
  let left ← operand expr
  fold expr bound left

end

/-! ### Tying the knot -/

/-- Gives up because no further expression may be opened. -/
def tooDeep : Parser Expression where
  run state := (.error (.tooDeep state.nesting state.current), state)
  reaches := .refl

/-- An expression whose operators bind tighter than `bound`, with at most `levels` expressions open
inside of one another. -/
def expressionWithin : (levels : Nat) → (bound : Precedence) → Parser Expression
  | 0, _ => tooDeep
  | levels + 1, bound => nested (operators (expressionWithin levels) bound)

/-- An expression whose operators bind tighter than `bound`, where at most `limit` expressions may
be open at once, those that are open already included. -/
def expression (limit : Nat) (bound : Precedence) : Parser Expression where
  run state := (expressionWithin (limit - state.nesting) bound).run state
  reaches state := (expressionWithin (limit - state.nesting) bound).reaches state

end MonkeyLang.Parser
