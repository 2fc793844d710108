import MonkeyLang.Parser.Expression
import MonkeyLang.Tree.Equality

/-!
# Parsing a whole text

A whole text is a sequence of statements up to the end of input.  Like a block it survives broken
statements: the fault is written down, the rest of the statement is skipped, and parsing goes on
with the next one.  So parsing never fails; it gives a program and the events on the way, among
which are the faults (`Parsed.faults`).

`State.program` takes the statements ahead of a position and leaves the position at the end of
input.  `Parsed.ofString` reads a text from its beginning with the usual limit, `maxNesting`.
-/

namespace MonkeyLang

/-- How many expressions may be open inside of one another. -/
def maxNesting : Nat := 128

namespace State

/-- The statements up to the end of input, and the position there.  At most `limit` expressions may
be open at once. -/
def statements (limit : Nat) (state : State) : List Statement × State :=
  if _ : state.current.kind = .endOfInput then ([], state)
  else
    let step := (Parser.statement (Parser.expression limit)).run state
    match step.1 with
    | .ok first =>
      let later := statements limit step.2.advance
      (first :: later.1, later.2)
    | .error fault =>
      let broken := step.2.note (.failed fault)
      statements limit (broken.synchronize 0).advance
termination_by state.tokens.length
decreasing_by
  all_goals
    have shorter := (Parser.statement (Parser.expression limit)).length_le state
    have positive := List.length_pos_iff.2 (state.tokens_ne_nil_of_current (by assumption))
  · have advanced :=
      ((Parser.statement (Parser.expression limit)).run state).2.length_advance
    omega
  · have resumed :=
      ((Parser.statement (Parser.expression limit)).run state).2.length_resume 0 fault
    omega

theorem statements_of_end {limit : Nat} {state : State} (h : state.current.kind = .endOfInput) :
    state.statements limit = ([], state) := by
  rw [statements, dif_pos h]

theorem statements_of_ok {limit : Nat} {state later : State} {first : Statement}
    (notEnded : state.current.kind ≠ .endOfInput)
    (step : (Parser.statement (Parser.expression limit)).run state = (.ok first, later)) :
    state.statements limit =
      (first :: (later.advance.statements limit).1, (later.advance.statements limit).2) := by
  rw [statements, dif_neg notEnded, step]

theorem statements_of_error {limit : Nat} {state later : State} {fault : Fault}
    (notEnded : state.current.kind ≠ .endOfInput)
    (step : (Parser.statement (Parser.expression limit)).run state = (.error fault, later)) :
    state.statements limit =
      ((later.note (.failed fault)).synchronize 0).advance.statements limit := by
  rw [statements, dif_neg notEnded, step]

/-- The program up to the end of input, and the position there. -/
def program (limit : Nat) (state : State) : Program × State :=
  (⟨(state.statements limit).1⟩, (state.statements limit).2)

end State

/-- What comes of parsing a text. -/
structure Parsed where
  /-- The statements that could be read. -/
  program : Program
  /-- What happened on the way, in the order in which it happened. -/
  history : List Event
deriving DecidableEq, Repr

namespace Parsed

/-- Parses some tokens that end at a given place, with at most `limit` expressions open at once. -/
def ofTokens (limit : Nat) (tokens : List Token) (finish : Location) : Parsed :=
  match (State.ofTokens tokens finish).program limit with
  | (program, final) => ⟨program, final.history⟩

/-- Parses what lies ahead of a lexer, with at most `limit` expressions open at once. -/
def ofLexer (limit : Nat) (lexer : Lexer) : Parsed := ofTokens limit lexer.tokens lexer.finish

/-- Parses a text. -/
def ofString (source : String) : Parsed := ofLexer maxNesting (.ofString source)

/-- The faults of a text, in the order in which they were found. -/
def faults (parsed : Parsed) : List Fault := parsed.history.filterMap Event.fault?

end Parsed

end MonkeyLang
