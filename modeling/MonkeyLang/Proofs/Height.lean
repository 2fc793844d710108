import MonkeyLang.Proofs.FixedPoint

/-!
# The height of trees

The limit on open expressions keeps a text from being nested too deeply, but it does not keep trees
from growing high.  The operators behind an operand are folded into it one after another, and none
of these steps opens an expression: the text `f()()...()` has no fault, however long it is, and each
call is one node higher than its callee (`Parsed.height_callText`).  So no number bounds the height
of all programs that come of parsing (`Parsed.not_exists_height_le`).

There is no other way in which trees outgrow the limit.  If the steps from an operation down to its
left operand, and from a call down to its callee, are not counted, then the height is at most three
times the limit and one (`Parsed.height_le`): an expression that is open adds itself, a block and a
statement.  This is an induction over all that the parser builds, for which it is enough to look at
each construct by itself (`upholds_low`).
-/

namespace MonkeyLang

/-! ### The height of a tree -/

section
variable (spine : Nat)

mutual

/-- The number of nodes on a longest path down from an expression.  The step to a left operand or to
a callee counts as much as `spine` says, which is one if all nodes are counted. -/
def Expression.height : Expression → Nat
  | .identifier _ | .integer _ _ | .boolean _ _ => 1
  | .unary _ _ operand => 1 + operand.height
  | .binary _ left _ right => max (spine + left.height) (1 + right.height)
  | .conditional _ condition consequence alternative =>
    1 + max condition.height (max consequence.height (alternativeHeight alternative))
  | .function _ parameters body => 1 + max (if parameters.isEmpty then 0 else 1) body.height
  | .call _ callee arguments => max (spine + callee.height) (1 + argumentHeight arguments)

/-- The number of nodes on a longest path down from a block. -/
def Block.height : Block → Nat
  | ⟨_, statements⟩ => 1 + statementHeight statements

/-- The number of nodes on a longest path down from a statement. -/
def Statement.height : Statement → Nat
  | .binding _ _ value => 1 + max 1 value.height
  | .result _ value => 1 + value.height
  | .expression _ value => 1 + value.height
  | .block body => body.height

/-- The height of the second block of a choice, zero if there is none. -/
def alternativeHeight : Option Block → Nat
  | none => 0
  | some block => block.height

/-- The largest height of an argument, zero if there is none. -/
def argumentHeight : List Expression → Nat
  | [] => 0
  | argument :: arguments => max argument.height (argumentHeight arguments)

/-- The largest height of a statement, zero if there is none. -/
def statementHeight : List Statement → Nat
  | [] => 0
  | statement :: statements => max statement.height (statementHeight statements)

end

/-- The number of nodes on a longest path down from the program itself. -/
def Program.height (program : Program) : Nat := 1 + statementHeight spine program.statements

end

variable {spine n : Nat}

theorem argumentHeight_le_iff {arguments : List Expression} :
    argumentHeight spine arguments ≤ n ↔ ∀ argument ∈ arguments, argument.height spine ≤ n := by
  induction arguments with
  | nil => simp [argumentHeight]
  | cons argument arguments ih => rw [argumentHeight, Nat.max_le, ih, List.forall_mem_cons]

theorem statementHeight_le_iff {statements : List Statement} :
    statementHeight spine statements ≤ n ↔
      ∀ statement ∈ statements, statement.height spine ≤ n := by
  induction statements with
  | nil => simp [statementHeight]
  | cons statement statements ih => rw [statementHeight, Nat.max_le, ih, List.forall_mem_cons]

section
variable (spine : Nat)

mutual

/-- The height only depends on what the canonical text determines. -/
theorem Expression.height_view : ∀ e : Expression, (e.view .content).height spine = e.height spine
  | .identifier _ | .integer _ _ | .boolean _ _ => rfl
  | .unary _ _ operand => by
    simp only [Expression.view, Expression.height, operand.height_view]
  | .binary _ left _ right => by
    simp only [Expression.view, Expression.height, left.height_view, right.height_view]
  | .conditional _ condition consequence alternative => by
    simp only [Expression.view, Expression.height, condition.height_view, consequence.height_view,
      alternativeHeight_view alternative]
  | .function _ parameters body => by
    simp only [Expression.view, Expression.height, body.height_view, List.isEmpty_map]
  | .call _ callee arguments => by
    simp only [Expression.view, Expression.height, callee.height_view,
      argumentHeight_view arguments]

theorem Block.height_view : ∀ b : Block, (b.view .content).height spine = b.height spine
  | ⟨_, statements⟩ => congrArg (1 + ·) (statementHeight_view statements)

theorem Statement.height_view : ∀ w : Statement,
    (w.view .content).height spine = w.height spine
  | .binding _ _ value => by simp only [Statement.view, Statement.height, value.height_view]
  | .result _ value => by simp only [Statement.view, Statement.height, value.height_view]
  | .expression _ value => by simp only [Statement.view, Statement.height, value.height_view]
  | .block body => by simp only [Statement.view, Statement.height, body.height_view]

theorem alternativeHeight_view : ∀ alternative : Option Block,
    alternativeHeight spine (alternativeView .content alternative) =
      alternativeHeight spine alternative
  | none => rfl
  | some block => by simp only [alternativeView, alternativeHeight, block.height_view]

theorem argumentHeight_view : ∀ arguments : List Expression,
    argumentHeight spine (argumentViews .content arguments) = argumentHeight spine arguments
  | [] => rfl
  | argument :: arguments => by
    simp only [argumentViews, argumentHeight, argument.height_view, argumentHeight_view arguments]

theorem statementHeight_view : ∀ statements : List Statement,
    statementHeight spine (statementViews .content statements) = statementHeight spine statements
  | [] => rfl
  | statement :: statements => by
    simp only [statementViews, statementHeight, statement.height_view,
      statementHeight_view statements]

end

end

/-- Programs with the same content are equally high. -/
theorem Program.height_eq_of_view {p q : Program} (h : p.view .content = q.view .content) :
    p.height spine = q.height spine := by
  have same : statementViews .content p.statements = statementViews .content q.statements :=
    congrArg Program.statements h
  rw [Program.height, Program.height, ← statementHeight_view, same, statementHeight_view]

/-! ### What the limit bounds -/

theorem height_le_of_blockOf {b : Block}
    (h : Parser.BlockOf (fun w => w.height spine ≤ n) b) : b.height spine ≤ 1 + n := by
  obtain ⟨token, statements⟩ := b
  exact Nat.add_le_add_left (statementHeight_le_iff.2 h.2) 1

/-- One level more makes a tree higher by three nodes at most, if the steps to left operands and
callees are not counted. -/
theorem upholds_low (levels : Nat) :
    Parser.Upholds (fun e => e.height 0 < 3 * levels) (fun e => e.height 0 < 3 * (levels + 1))
      (fun w => w.height 0 ≤ 3 * levels) where
  name _ := by
    show 1 < 3 * (levels + 1)
    omega
  integer _ _ := by
    show 1 < 3 * (levels + 1)
    omega
  truth _ _ := by
    show 1 < 3 * (levels + 1)
    omega
  group inner := by omega
  unary _ operand := by
    rw [Expression.height]
    omega
  conditional {_ _ _ alternative} _ condition consequence others := by
    have first := height_le_of_blockOf consequence
    have second : alternativeHeight 0 alternative ≤ 1 + 3 * levels := by
      cases alternative with
      | none => exact Nat.zero_le _
      | some b => exact height_le_of_blockOf (others b rfl)
    rw [Expression.height]
    omega
  function _ _ body := by
    have inside := height_le_of_blockOf body
    rw [Expression.height]
    split <;> omega
  call {_ callee arguments} _ outer inner := by
    have outer : callee.height 0 < 3 * (levels + 1) := outer
    have inside : argumentHeight 0 arguments ≤ 3 * levels :=
      argumentHeight_le_iff.2 fun argument member => Nat.le_of_lt (inner argument member)
    rw [Expression.height]
    omega
  binary _ left right := by
    rw [Expression.height]
    omega
  binding _ _ value := by
    rw [Statement.height]
    omega
  result _ value := by
    rw [Statement.height]
    omega
  bare value := by
    rw [Statement.height]
    omega

theorem gives_low (levels : Nat) (bound : Precedence) :
    (Parser.expressionWithin levels bound).Gives fun e => e.height 0 < 3 * levels :=
  Parser.Upholds.gives upholds_low levels bound

/-- **The limit bounds the height, left operands and callees apart.**  Whatever the limit and the
text, on any path down from the program there are at most three nodes for each level and one more,
if the steps to left operands and callees are not counted. -/
theorem Parsed.height_le (limit : Nat) (lexer : Lexer) :
    (ofLexer limit lexer).program.height 0 ≤ 3 * limit + 1 := by
  have expressions (bound : Precedence) :
      (Parser.expression limit bound).Gives fun e => e.height 0 < 3 * limit := by
    intro s e t whole read
    have low := gives_low (limit - s.nesting) bound whole read
    omega
  have all := State.gives_statements ((upholds_low limit).statement expressions)
    (State.whole_ofLexer lexer)
  have low : statementHeight 0 ((State.ofLexer lexer).statements limit).1 ≤ 3 * limit :=
    statementHeight_le_iff.2 all
  show 1 + statementHeight 0 ((State.ofLexer lexer).statements limit).1 ≤ 3 * limit + 1
  omega

/-! ### What it does not bound -/

/-- A name that is called, and the value again, so many times. -/
def callText : Nat → String
  | 0 => "f"
  | n + 1 => callText n ++ "()"

/-- The tree of these calls. -/
def repeatedCall : Nat → Expression
  | 0 => .identifier ⟨⟨.identifier, "f", .start⟩, "f"⟩
  | n + 1 => .call Kind.leftParen.sign.token (repeatedCall n) []

/-- The program of these calls. -/
def callProgram (n : Nat) : Program := ⟨[.expression (.endOfInput .start) (repeatedCall n)]⟩

theorem render_callProgram (n : Nat) : (callProgram n).render = callText n := by
  show (repeatedCall n).render = callText n
  induction n with
  | zero => rfl
  | succ n ih =>
    show (repeatedCall n).render ++ "(" ++ "" ++ ")" = callText n ++ "()"
    rw [ih, String.append_assoc, String.append_assoc]
    rfl

theorem coherent_repeatedCall (n : Nat) : (repeatedCall n).Coherent Denotes := by
  induction n with
  | zero =>
    refine ⟨⟨?_, rfl⟩, rfl⟩
    exact Lexer.whole_of_mem_tokens (.ofString "f") _ (by decide +kernel)
  | succ n ih => exact ⟨Kind.fits_sign (by decide), ih, trivial⟩

theorem depth_repeatedCall (n : Nat) : (repeatedCall n).depth = 1 := by
  induction n with
  | zero => rfl
  | succ n ih => rw [repeatedCall, Expression.depth, ih, argumentDepth, Nat.max_zero]

theorem height_repeatedCall (n : Nat) : (repeatedCall n).height 1 = n + 1 := by
  induction n with
  | zero => rfl
  | succ n ih =>
    rw [repeatedCall, Expression.height, ih, argumentHeight]
    omega

/-- Repeated calls are read without fault, and each one adds a node. -/
theorem Parsed.height_callText (n : Nat) :
    (ofString (callText n)).faults = [] ∧ (ofString (callText n)).program.height 1 = n + 3 := by
  have coherent : (callProgram n).Coherent Denotes := ⟨coherent_repeatedCall n, trivial⟩
  have within : ∀ statement ∈ (callProgram n).statements, statement.depth ≤ maxNesting := by
    intro statement member
    obtain rfl := List.mem_singleton.1 member
    show (repeatedCall n).depth ≤ maxNesting
    rw [depth_repeatedCall]
    decide
  obtain ⟨clean, same⟩ := (callProgram n).ofString_render coherent within
  rw [render_callProgram] at clean same
  refine ⟨clean, ?_⟩
  rw [Program.height_eq_of_view same]
  show 1 + max (1 + (repeatedCall n).height 1) 0 = n + 3
  rw [height_repeatedCall]
  omega

/-- No number bounds the height of all programs that come of parsing. -/
theorem Parsed.not_exists_height_le :
    ¬∃ bound, ∀ source, (ofString source).program.height 1 ≤ bound := by
  rintro ⟨bound, all⟩
  have low := all (callText bound)
  rw [(Parsed.height_callText bound).2] at low
  omega

end MonkeyLang
