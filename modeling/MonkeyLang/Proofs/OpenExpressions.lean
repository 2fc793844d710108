import MonkeyLang.Proofs.Closing
import MonkeyLang.Proofs.Coherence

/-!
# Open expressions are counted

The number of open expressions is exact, it never exceeds the limit, and it bounds what is built
(`Parser.expression_counts`).

The parser of expressions is a recursion over the levels that are left.  Another recursion,
`counted`, knows nothing of levels: before it opens an expression it asks how many are open.  It
raises an alarm if there are more than the limit allows, wherever their number has changed, and if
it calls itself more often than it was told.  Nothing else changes the number
(`State.Reaches.nesting_eq`).  Whatever the alarm does, the recursion reads what the parser reads
(`run_counted`), so it is never raised.

What is built with so many levels left takes no more `levels` itself, which is shown construct by
construct (`upholds_levels`).  A left operand and a callee do not take a level of their own, since
they have been read when their operator opens another expression.
-/

namespace MonkeyLang

/-! ### The levels of a tree -/

mutual

/-- How many expressions have to be open inside of one another to read an expression.  Parentheses
that only group are not counted. -/
def Expression.levels : Expression → Nat
  | .identifier _ | .integer _ _ | .boolean _ _ => 1
  | .unary _ _ operand => 1 + operand.levels
  | .binary _ left _ right => max left.levels (1 + right.levels)
  | .conditional _ condition consequence alternative =>
    1 + max condition.levels (max consequence.levels (alternativeLevels alternative))
  | .function _ _ body => max 1 (1 + body.levels)
  | .call _ callee arguments => max callee.levels (1 + argumentLevels arguments)

/-- The largest number of levels of a value in a block, zero if there is none. -/
def Block.levels : Block → Nat
  | ⟨_, statements⟩ => statementLevels statements

/-- The levels of the value of a statement. -/
def Statement.levels : Statement → Nat
  | .binding _ _ value => value.levels
  | .result _ value => value.levels
  | .expression _ value => value.levels
  | .block body => body.levels

/-- The largest number of levels of a value in the second block of a choice, zero if there is
none. -/
def alternativeLevels : Option Block → Nat
  | none => 0
  | some block => block.levels

/-- The largest number of levels of an argument, zero if there is none. -/
def argumentLevels : List Expression → Nat
  | [] => 0
  | argument :: arguments => max argument.levels (argumentLevels arguments)

/-- The largest number of levels of a value in a list of statements, zero if there is none. -/
def statementLevels : List Statement → Nat
  | [] => 0
  | statement :: statements => max statement.levels (statementLevels statements)

end

variable {n : Nat}

theorem argumentLevels_le_iff {arguments : List Expression} :
    argumentLevels arguments ≤ n ↔ ∀ argument ∈ arguments, argument.levels ≤ n := by
  induction arguments with
  | nil => simp [argumentLevels]
  | cons argument arguments ih => rw [argumentLevels, Nat.max_le, ih, List.forall_mem_cons]

theorem statementLevels_le_iff {statements : List Statement} :
    statementLevels statements ≤ n ↔ ∀ statement ∈ statements, statement.levels ≤ n := by
  induction statements with
  | nil => simp [statementLevels]
  | cons statement statements ih => rw [statementLevels, Nat.max_le, ih, List.forall_mem_cons]

theorem levels_le_of_blockOf {b : Block} (h : Parser.BlockOf (fun w => w.levels ≤ n) b) :
    b.levels ≤ n := by
  obtain ⟨token, statements⟩ := b
  exact statementLevels_le_iff.2 h.2

/-- No construct takes more than one level in addition to those of the expressions inside. -/
theorem upholds_levels (n : Nat) : Parser.Upholds (fun e => e.levels ≤ n)
    (fun e => e.levels ≤ n + 1) (fun w => w.levels ≤ n) where
  name _ := Nat.le_add_left 1 n
  integer _ _ := Nat.le_add_left 1 n
  truth _ _ := Nat.le_add_left 1 n
  group inner := Nat.le_succ_of_le inner
  unary _ operand := by
    rw [Expression.levels]
    omega
  conditional {_ _ _ alternative} _ condition consequence others := by
    have first := levels_le_of_blockOf consequence
    have second : alternativeLevels alternative ≤ n := by
      cases alternative with
      | none => exact Nat.zero_le n
      | some b => exact levels_le_of_blockOf (others b rfl)
    rw [Expression.levels]
    omega
  function _ _ body := by
    have inside := levels_le_of_blockOf body
    rw [Expression.levels]
    omega
  call {_ callee arguments} _ outer inner := by
    have outer : callee.levels ≤ n + 1 := outer
    have inside : argumentLevels arguments ≤ n := argumentLevels_le_iff.2 inner
    rw [Expression.levels]
    omega
  binary _ left right := by
    rw [Expression.levels]
    omega
  binding _ _ value := value
  result _ value := value
  bare value := value

/-! ### The count is watched -/

namespace Parser

/-- The parser, unless more expressions are open than the limit allows. -/
def watched (limit : Nat) (alarm parser : Parser Expression) : Parser Expression where
  run state := if state.nesting ≤ limit then parser.run state else alarm.run state
  reaches state := by
    split
    · exact parser.reaches state
    · exact alarm.reaches state

/-- The parser with one more expression open, if there may be one more. -/
def admitted (limit : Nat) (parser : Parser Expression) : Parser Expression where
  run state := if limit ≤ state.nesting then tooDeep.run state else (nested parser).run state
  reaches state := by
    split
    · exact tooDeep.reaches state
    · exact (nested parser).reaches state

/-- An expression, read by a recursion that asks how many expressions are open before it opens
another one.  The alarm is raised if they are too many on entry or behind the increase, or if more
than so many calls are made inside of one another. -/
def counted (limit : Nat) (alarm : Parser Expression) :
    (calls : Nat) → (bound : Precedence) → Parser Expression
  | 0, _ => alarm
  | calls + 1, bound =>
    watched limit alarm
      (admitted limit (watched limit alarm (operators (counted limit alarm calls) bound)))

variable {limit : Nat} {alarm parser : Parser Expression} {s : State}

theorem run_watched (within : s.nesting ≤ limit) :
    (watched limit alarm parser).run s = parser.run s :=
  if_pos within

theorem run_admitted_of_le (full : limit ≤ s.nesting) :
    (admitted limit parser).run s = tooDeep.run s :=
  if_pos full

theorem run_admitted_of_lt (room : s.nesting < limit) :
    (admitted limit parser).run s = (nested parser).run s :=
  if_neg (Nat.not_le_of_lt room)

/-- A run and itself, with so many expressions open. -/
def withOpen (n : Nat) : Coupling where
  left := .full
  right := .full
  Near s t := s = t ∧ s.nesting = n
  Ready _ := True
  Lost _ _ := False
  Doomed _ := False
  similar near := near.1 ▸ similar_full _
  similar_peek near _ := near.1 ▸ similar_full _
  advance near _ := .inl ⟨⟨congrArg State.advance near.1, near.2⟩, trivial⟩
  began near := ⟨by rw [near.1], near.2⟩
  completed near := ⟨by rw [near.1], near.2⟩
  ready _ _ := trivial
  lost h _ _ := h

theorem roams_withOpen (n : Nat) : (withOpen n).Roams where
  similar_peek near := near.1 ▸ similar_full _
  advance near := .inl ⟨congrArg State.advance near.1, near.2⟩
  braceDepth near := by rw [near.1]
  failed {s t f g} near same := by
    obtain rfl : f = g := Fault.eq_of_view_full same
    exact ⟨by rw [near.1], near.2⟩
  doomed h := h.elim

theorem exact_withOpen (n : Nat) : (withOpen n).Exact where
  left := rfl
  right := rfl
  near near := near.1
  lost h := h
  doomed h := h

variable {expr : Precedence → Parser Expression}

/-- What does the same as the parser of expressions where so many expressions are open agrees with
it there. -/
theorem agree_withOpen
    (same : ∀ bound (s : State), s.nesting = n →
      (expr bound).run s = (expression limit bound).run s) (bound : Precedence) :
    (withOpen n).Agree (expr bound) (expression limit bound) := by
  rintro s _ ⟨rfl, opened⟩ -
  rw [same bound s opened]
  have near : (withOpen n).Near ((expression limit bound).run s).2 _ :=
    ⟨rfl, ((expression limit bound).reaches s).nesting_eq.trans opened⟩
  exact Coupling.meets_self rfl near fun e ok => solid_of_expression (Prod.ext ok rfl)

/-- So the operators behind an operand are read in the same way. -/
theorem run_operators_congr
    (same : ∀ bound (s : State), s.nesting = n →
      (expr bound).run s = (expression limit bound).run s) (bound : Precedence)
    (opened : s.nesting = n) :
    (operators expr bound).run s = (operators (expression limit) bound).run s := by
  have agree := agree_withOpen same
  have blocks := (roams_withOpen n).agree_block (agree .lowest)
  exact (exact_withOpen n).eq_of_meets
    (Coupling.agree_operators agree blocks bound ⟨rfl, opened⟩ trivial)

/-- As long as another expression may be opened, it is opened and its operators are read. -/
theorem run_expression_of_lt (bound : Precedence) (room : s.nesting < limit) :
    (expression limit bound).run s = (nested (operators (expression limit) bound)).run s := by
  have left : limit - s.nesting = limit - (s.nesting + 1) + 1 := by omega
  have inside : (operators (expressionWithin (limit - (s.nesting + 1))) bound).run
      { s with nesting := s.nesting + 1 } =
        (operators (expression limit) bound).run { s with nesting := s.nesting + 1 } := by
    refine run_operators_congr (n := s.nesting + 1) (fun bound t opened => ?_) bound rfl
    show _ = (expressionWithin (limit - t.nesting) bound).run t
    rw [opened]
  show (expressionWithin (limit - s.nesting) bound).run s = _
  rw [left, expressionWithin, run_nested, run_nested, inside]

/-- Otherwise it fails where it stands. -/
theorem run_expression_of_le (bound : Precedence) (full : limit ≤ s.nesting) :
    (expression limit bound).run s = (.error (.tooDeep s.nesting s.current), s) := by
  show (expressionWithin (limit - s.nesting) bound).run s = _
  rw [Nat.sub_eq_zero_of_le full]
  rfl

/-- The recursion that asks for the count never raises its alarm. -/
theorem run_counted (alarm : Parser Expression) {calls : Nat} (within : s.nesting ≤ limit)
    (enough : limit - s.nesting < calls) (bound : Precedence) :
    (counted limit alarm calls bound).run s = (expression limit bound).run s := by
  induction calls generalizing s bound with
  | zero => exact absurd enough (Nat.not_lt_zero _)
  | succ calls ih =>
    rw [counted, run_watched within]
    by_cases full : limit ≤ s.nesting
    · rw [run_expression_of_le bound full, run_admitted_of_le full]
      rfl
    · have room : s.nesting < limit := Nat.lt_of_not_le full
      -- behind the increase the count is still within the limit, and fewer calls are needed
      have same bound (t : State) (opened : t.nesting = s.nesting + 1) :
          (counted limit alarm calls bound).run t = (expression limit bound).run t :=
        ih (by omega) (by omega) bound
      rw [run_expression_of_lt bound room, run_admitted_of_lt room, run_nested, run_nested,
        run_watched room, run_operators_congr same bound rfl]

/-- Nor does it in a whole program. -/
theorem statementsBy_counted (alarm : Parser Expression) {calls : Nat} (enough : limit < calls)
    (top : s.nesting = 0) :
    s.statementsBy (counted limit alarm calls) = s.statements limit := by
  have same bound (t : State) (opened : t.nesting = 0) :
      (counted limit alarm calls bound).run t = (expression limit bound).run t :=
    run_counted alarm (by omega) (by omega) bound
  have ended := (roams_withOpen 0).statementsBy (counted limit alarm calls) (expression limit)
    (agree_withOpen same .lowest) ⟨rfl, top⟩ trivial
  rw [← State.statements_eq_statementsBy] at ended
  obtain ⟨near, views⟩ | lost := ended
  · have views : statementViews .full _ = statementViews .full _ := views
    rw [statementViews_full, statementViews_full] at views
    exact Prod.ext views near.1
  · exact lost.elim

/-- **The number of open expressions is exact, and it bounds what is built.**  At any position that
can be reached with no more expressions open than the limit allows, an expression leaves as many of
them open as before, whether it is read or not.  Meanwhile there are never more than the limit
allows.  If there are so many already, then it fails where it stands; and if it is read, then its
levels fit in what was left.  In a whole program there are never more than the limit allows
either. -/
theorem expression_counts {lexer : Lexer} (bound : Precedence) (reachable : s.Reachable lexer)
    (within : s.nesting ≤ limit) :
    let result := (expression limit bound).run s
    result.2.nesting = s.nesting ∧
      (∀ alarm calls, limit - s.nesting < calls →
        (counted limit alarm calls bound).run s = result) ∧
      (s.nesting = limit → result = (.error (.tooDeep limit s.current), s)) ∧
      (∀ e, result.1 = .ok e → s.nesting + e.levels ≤ limit) ∧
      ∀ alarm calls, limit < calls →
        (State.ofLexer lexer).statementsBy (counted limit alarm calls) =
          (State.ofLexer lexer).statements limit := by
  intro result
  refine ⟨((expression limit bound).reaches s).nesting_eq,
    fun alarm calls enough => run_counted alarm within enough bound, ?_, ?_,
    fun alarm calls enough => statementsBy_counted alarm enough rfl⟩
  · intro full
    have failed := run_expression_of_le bound (Nat.le_of_eq full.symm)
    rwa [full] at failed
  · intro e ok
    have whole : State.Whole { s with nesting := 0 } :=
      (State.whole_ofLexer lexer).reaches reachable
    have whole : s.Whole := whole
    have read : (expressionWithin (limit - s.nesting) bound).Reads (fun _ => True) s e result.2 :=
      reads_any_iff.2 (Prod.ext ok rfl)
    have fits : e.levels ≤ limit - s.nesting :=
      Upholds.gives upholds_levels (limit - s.nesting) bound whole read
    omega

/-- A sign and a name take the last two levels. -/
theorem expression_counts_sign :
    let s : State := { State.ofLexer (.ofString "-a") with nesting := 126 }
    let result := (expression maxNesting .lowest).run s
    s.Reachable (.ofString "-a") ∧ s.nesting ≤ maxNesting ∧
      result.2.nesting = 126 ∧
      (∀ alarm, (counted maxNesting alarm 3 .lowest).run s = result) ∧
      ∃ e, result.1 = .ok e ∧ e.levels = 2 ∧ s.nesting + e.levels ≤ maxNesting := by
  intro s result
  have reachable : s.Reachable (.ofString "-a") := .refl _
  have within : s.nesting ≤ maxNesting := by decide
  obtain ⟨same, watch, -, fits, -⟩ := expression_counts .lowest reachable within
  have levels : result.1.toOption.map Expression.levels = some 2 := by decide +kernel
  refine ⟨reachable, within, same, fun alarm => watch alarm 3 (by decide), ?_⟩
  cases ok : result.1 with
  | error fault =>
    rw [ok] at levels
    cases levels
  | ok e =>
    rw [ok] at levels
    exact ⟨e, rfl, Option.some.inj levels, fits e ok⟩

end Parser

end MonkeyLang
