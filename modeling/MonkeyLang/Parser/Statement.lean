import MonkeyLang.Parser.Basic
import MonkeyLang.Token.Precedence
import MonkeyLang.Tree.Basic

/-!
# Statements and blocks

    statement = "let" identifier "=" expression ";"?
              | "return" expression ";"?
              | expression ";"?
    block     = "{" statement* "}"

All parsers here take the parser of expressions as a parameter, since the expressions contain blocks
in turn.  A parser of expressions is a family, indexed by the strength below which an operator is
left to the caller.

A semicolon ends a statement but is never required.  A block survives broken statements: the fault
is written down, the rest of the statement is skipped by `State.synchronize`, and the block goes on.
Only a block that is still open at the end of input is a fault of its own.
-/

namespace MonkeyLang.Parser

variable (expr : Precedence → Parser Expression)

/-- A statement of a kind that its first token tells, from that token to its last. -/
def statementAt (token : Token) : Parser Statement := do
  match token.kind with
  | .letWord =>
    let name ← expect .identifier
    let _ ← expect .assign
    advance
    let value ← expr .lowest
    skip .semicolon
    pure (.binding token ⟨name, name.literal⟩ value)
  | .returnWord =>
    advance
    let value ← expr .lowest
    skip .semicolon
    pure (.result token value)
  | _ =>
    let value ← expr .lowest
    skip .semicolon
    pure (.expression token value)

/-- A statement, from its first token to its last. -/
def statement : Parser Statement := do
  let token ← current
  note (.began token)
  let statement ← statementAt expr token
  note .completed
  pure statement

/-- The statements of a block up to its closing brace.  The `depth` is the number of open braces
inside the block.  A broken statement that has run into the closing brace of the block ends the
block there. -/
def statementsFrom (depth : Nat) (state : State) : Except Fault (List Statement) × State :=
  if state.current.kind = .rightBrace then (.ok [], state)
  else if _ : state.current.kind = .endOfInput then
    (.error (.unexpected .rightBrace state.current), state)
  else
    let step := (statement expr).run state
    match step.1 with
    | .ok first =>
      let later := statementsFrom depth step.2.advance
      (later.1.map (first :: ·), later.2)
    | .error fault =>
      let broken := step.2.note (.failed fault)
      if broken.current.kind = .rightBrace ∧ broken.braceDepth < depth then (.ok [], broken)
      else statementsFrom depth (broken.synchronize depth).advance
termination_by state.tokens.length
decreasing_by
  all_goals
    have shorter := (statement expr).length_le state
    have positive := List.length_pos_iff.2 (state.tokens_ne_nil_of_current (by assumption))
  · have advanced := ((statement expr).run state).2.length_advance
    omega
  · have resumed := ((statement expr).run state).2.length_resume depth fault
    omega

theorem statementsFrom_of_brace {depth : Nat} {state : State}
    (h : state.current.kind = .rightBrace) : statementsFrom expr depth state = (.ok [], state) := by
  rw [statementsFrom, if_pos h]

theorem statementsFrom_of_end {depth : Nat} {state : State}
    (h : state.current.kind = .endOfInput) :
    statementsFrom expr depth state = (.error (.unexpected .rightBrace state.current), state) := by
  rw [statementsFrom, if_neg (by simp [h]), dif_pos h]

theorem statementsFrom_of_ok {depth : Nat} {state later : State} {first : Statement}
    (notClosed : state.current.kind ≠ .rightBrace) (notEnded : state.current.kind ≠ .endOfInput)
    (step : (statement expr).run state = (.ok first, later)) :
    statementsFrom expr depth state =
      ((statementsFrom expr depth later.advance).1.map (first :: ·),
        (statementsFrom expr depth later.advance).2) := by
  rw [statementsFrom, if_neg notClosed, dif_neg notEnded, step]

theorem statementsFrom_of_error {depth : Nat} {state later : State} {fault : Fault}
    (notClosed : state.current.kind ≠ .rightBrace) (notEnded : state.current.kind ≠ .endOfInput)
    (step : (statement expr).run state = (.error fault, later)) :
    statementsFrom expr depth state =
      if later.current.kind = .rightBrace ∧ later.braceDepth < depth then
        (.ok [], later.note (.failed fault))
      else statementsFrom expr depth ((later.note (.failed fault)).synchronize depth).advance := by
  rw [statementsFrom, if_neg notClosed, dif_neg notEnded, step]
  rfl

/-- The statements of a block do not move back. -/
theorem statementsFrom_reaches (depth : Nat) (state : State) :
    state.Reaches (statementsFrom expr depth state).2 := by
  fun_induction statementsFrom expr depth state with
  | case1 => exact .refl _
  | case2 => exact .refl _
  | case3 state _ _ step first _ later ih => exact ((statement expr).reaches state).advance.trans ih
  | case4 state _ _ step fault _ broken _ => exact ((statement expr).reaches state).note _
  | case5 state _ _ step fault _ broken _ ih =>
    have failed : state.Reaches broken := ((statement expr).reaches state).note _
    exact ((failed.trans (broken.synchronize_reaches depth)).advance).trans ih

/-- The statements of a block whose opening brace is `depth` braces deep. -/
def statements (depth : Nat) : Parser (List Statement) :=
  ⟨statementsFrom expr depth, statementsFrom_reaches expr depth⟩

/-- A block, from its opening to its closing brace. -/
def block : Parser Block := do
  let token ← current
  let depth ← look State.braceDepth
  advance
  let body ← statements expr depth
  pure ⟨token, body⟩

end MonkeyLang.Parser
