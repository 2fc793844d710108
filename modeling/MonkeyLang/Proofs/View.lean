import MonkeyLang.Tree.Basic

/-!
# Seeing a tree through a view

Two programs are often the same but for details: the places of their tokens, the token that a bare
statement keeps, or what stands in one of their blocks.  A `View` says which details are blurred,
and `Program.view` is a program with these details blurred.  So two programs agree but for the
details if they look the same through the view.

`Token.spelling` blurs the place of a token, and `View.full` blurs nothing (`Program.view_full`).
-/

namespace MonkeyLang

/-- What is seen of a tree. -/
structure View where
  /-- What is seen of the token of a node. -/
  node : Token → Token
  /-- What is seen of the token that a bare statement keeps. -/
  lead : Token → Token
  /-- Whether the statements behind an opening brace are hidden. -/
  closed : Token → Bool

/-- Everything is seen as it is. -/
def View.full : View := ⟨id, id, fun _ => false⟩

/-- A token without its place. -/
def Token.spelling (token : Token) : Token := { token with location := .start }

theorem Token.spelling_eq_iff {s t : Token} :
    s.spelling = t.spelling ↔ s.kind = t.kind ∧ s.literal = t.literal := by
  simp [spelling]

/-- A name through a view. -/
def Identifier.view (v : View) (name : Identifier) : Identifier := ⟨v.node name.token, name.name⟩

mutual

/-- An expression through a view. -/
def Expression.view (v : View) : Expression → Expression
  | .identifier name => .identifier (name.view v)
  | .integer token value => .integer (v.node token) value
  | .boolean token value => .boolean (v.node token) value
  | .unary token operator operand => .unary (v.node token) operator (operand.view v)
  | .binary token left operator right =>
    .binary (v.node token) (left.view v) operator (right.view v)
  | .conditional token condition consequence alternative =>
    .conditional (v.node token) (condition.view v) (consequence.view v)
      (alternativeView v alternative)
  | .function token parameters body =>
    .function (v.node token) (parameters.map (Identifier.view v)) (body.view v)
  | .call token callee arguments =>
    .call (v.node token) (callee.view v) (argumentViews v arguments)

/-- A block through a view. -/
def Block.view (v : View) : Block → Block
  | ⟨token, statements⟩ =>
    ⟨v.node token, if v.closed token then [] else statementViews v statements⟩

/-- A statement through a view. -/
def Statement.view (v : View) : Statement → Statement
  | .binding token name value => .binding (v.node token) (name.view v) (value.view v)
  | .result token value => .result (v.node token) (value.view v)
  | .expression token value => .expression (v.lead token) (value.view v)
  | .block body => .block (body.view v)

/-- The second block of a choice through a view. -/
def alternativeView (v : View) : Option Block → Option Block
  | none => none
  | some block => some (block.view v)

/-- The arguments of a call through a view. -/
def argumentViews (v : View) : List Expression → List Expression
  | [] => []
  | argument :: arguments => argument.view v :: argumentViews v arguments

/-- The statements of a block or program through a view. -/
def statementViews (v : View) : List Statement → List Statement
  | [] => []
  | statement :: statements => statement.view v :: statementViews v statements

end

/-- A program through a view. -/
def Program.view (v : View) (program : Program) : Program :=
  ⟨statementViews v program.statements⟩

/-! ### The full view -/

theorem Identifier.view_full (name : Identifier) : name.view .full = name := rfl

mutual

theorem Expression.view_full : ∀ e : Expression, e.view .full = e
  | .identifier _ => rfl
  | .integer _ _ => rfl
  | .boolean _ _ => rfl
  | .unary _ _ operand => by
    rw [Expression.view, operand.view_full]
    rfl
  | .binary _ left _ right => by
    rw [Expression.view, left.view_full, right.view_full]
    rfl
  | .conditional _ condition consequence alternative => by
    rw [Expression.view, condition.view_full, consequence.view_full,
      alternativeView_full alternative]
    rfl
  | .function _ parameters body => by
    rw [Expression.view, body.view_full, List.map_congr_left fun name _ => name.view_full,
      List.map_id']
    rfl
  | .call _ callee arguments => by
    rw [Expression.view, callee.view_full, argumentViews_full arguments]
    rfl

theorem Block.view_full : ∀ b : Block, b.view .full = b
  | ⟨token, statements⟩ => by
    rw [Block.view, statementViews_full statements]
    rfl

theorem Statement.view_full : ∀ w : Statement, w.view .full = w
  | .binding _ _ value => by
    rw [Statement.view, value.view_full]
    rfl
  | .result _ value => by
    rw [Statement.view, value.view_full]
    rfl
  | .expression _ value => by
    rw [Statement.view, value.view_full]
    rfl
  | .block body => by rw [Statement.view, body.view_full]

theorem alternativeView_full : ∀ alternative : Option Block,
    alternativeView .full alternative = alternative
  | none => rfl
  | some block => by rw [alternativeView, block.view_full]

theorem argumentViews_full : ∀ arguments : List Expression,
    argumentViews .full arguments = arguments
  | [] => rfl
  | argument :: arguments => by
    rw [argumentViews, argument.view_full, argumentViews_full arguments]

theorem statementViews_full : ∀ statements : List Statement,
    statementViews .full statements = statements
  | [] => rfl
  | statement :: statements => by
    rw [statementViews, statement.view_full, statementViews_full statements]

end

/-- Through the full view a program is seen as it is. -/
theorem Program.view_full (program : Program) : program.view .full = program := by
  rw [view, statementViews_full]

/-- Arguments are seen one by one. -/
theorem argumentViews_eq (v : View) (arguments : List Expression) :
    argumentViews v arguments = arguments.map (Expression.view v) := by
  induction arguments with
  | nil => rfl
  | cons argument arguments ih => rw [argumentViews, ih, List.map_cons]

end MonkeyLang
