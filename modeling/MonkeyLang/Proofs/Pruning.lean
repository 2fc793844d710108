import MonkeyLang.Tree.Basic

/-!
# Trees with statements left out

`kept.PrunedFrom whole` says that the tree `kept` is what is left of `whole` when some statements
are deleted, at top level or in blocks at any depth.  All that is left is unchanged: every node has
the same tokens, names and values as before, and its parts in the same places.  Only lists of
statements may get shorter, by dropping some of them (`PrunedStatements`); there are as many
arguments, parameters and blocks as before.
-/

namespace MonkeyLang

mutual

/-- The first expression is left of the second when statements in its blocks are deleted. -/
inductive Expression.PrunedFrom : Expression → Expression → Prop
  | identifier (name : Identifier) : Expression.PrunedFrom (.identifier name) (.identifier name)
  | integer (token : Token) (value : Int) :
      Expression.PrunedFrom (.integer token value) (.integer token value)
  | boolean (token : Token) (value : Bool) :
      Expression.PrunedFrom (.boolean token value) (.boolean token value)
  | unary (token : Token) (operator : String) {operand operand' : Expression} :
      Expression.PrunedFrom operand operand' →
      Expression.PrunedFrom (.unary token operator operand) (.unary token operator operand')
  | binary (token : Token) (operator : String) {left left' right right' : Expression} :
      Expression.PrunedFrom left left' → Expression.PrunedFrom right right' →
      Expression.PrunedFrom (.binary token left operator right)
        (.binary token left' operator right')
  | conditional (token : Token) {condition condition' : Expression}
      {consequence consequence' : Block} {alternative alternative' : Option Block} :
      Expression.PrunedFrom condition condition' → Block.PrunedFrom consequence consequence' →
      PrunedAlternative alternative alternative' →
      Expression.PrunedFrom (.conditional token condition consequence alternative)
        (.conditional token condition' consequence' alternative')
  | function (token : Token) (parameters : List Identifier) {body body' : Block} :
      Block.PrunedFrom body body' →
      Expression.PrunedFrom (.function token parameters body) (.function token parameters body')
  | call (token : Token) {callee callee' : Expression} {arguments arguments' : List Expression} :
      Expression.PrunedFrom callee callee' → PrunedArguments arguments arguments' →
      Expression.PrunedFrom (.call token callee arguments) (.call token callee' arguments')

/-- The first block is left of the second when some of its statements are deleted. -/
inductive Block.PrunedFrom : Block → Block → Prop
  | mk (token : Token) {statements statements' : List Statement} :
      PrunedStatements statements statements' →
      Block.PrunedFrom ⟨token, statements⟩ ⟨token, statements'⟩

/-- The first statement is left of the second when statements inside of it are deleted. -/
inductive Statement.PrunedFrom : Statement → Statement → Prop
  | binding (token : Token) (name : Identifier) {value value' : Expression} :
      Expression.PrunedFrom value value' →
      Statement.PrunedFrom (.binding token name value) (.binding token name value')
  | result (token : Token) {value value' : Expression} :
      Expression.PrunedFrom value value' →
      Statement.PrunedFrom (.result token value) (.result token value')
  | expression (token : Token) {value value' : Expression} :
      Expression.PrunedFrom value value' →
      Statement.PrunedFrom (.expression token value) (.expression token value')
  | block {body body' : Block} :
      Block.PrunedFrom body body' → Statement.PrunedFrom (.block body) (.block body')

/-- The second block of a choice is there before and after, or neither. -/
inductive PrunedAlternative : Option Block → Option Block → Prop
  | none : PrunedAlternative none none
  | some {block block' : Block} :
      Block.PrunedFrom block block' → PrunedAlternative (some block) (some block')

/-- Arguments are pruned one by one. -/
inductive PrunedArguments : List Expression → List Expression → Prop
  | nil : PrunedArguments [] []
  | cons {argument argument' : Expression} {arguments arguments' : List Expression} :
      Expression.PrunedFrom argument argument' → PrunedArguments arguments arguments' →
      PrunedArguments (argument :: arguments) (argument' :: arguments')

/-- A statement is kept, perhaps with statements deleted inside of it, or it is dropped. -/
inductive PrunedStatements : List Statement → List Statement → Prop
  | nil : PrunedStatements [] []
  | keep {statement statement' : Statement} {statements statements' : List Statement} :
      Statement.PrunedFrom statement statement' → PrunedStatements statements statements' →
      PrunedStatements (statement :: statements) (statement' :: statements')
  | drop (statement : Statement) {statements statements' : List Statement} :
      PrunedStatements statements statements' →
      PrunedStatements statements (statement :: statements')

end

/-- The first program is left of the second when some statements are deleted. -/
def Program.PrunedFrom (kept whole : Program) : Prop :=
  PrunedStatements kept.statements whole.statements

/-- Statements in front may be dropped. -/
theorem PrunedStatements.of_suffix {kept later whole : List Statement}
    (h : PrunedStatements kept later) (suffix : later <:+ whole) : PrunedStatements kept whole := by
  obtain ⟨front, rfl⟩ := suffix
  induction front with
  | nil => exact h
  | cons statement front ih => exact .drop statement ih

end MonkeyLang
