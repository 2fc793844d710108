import MonkeyLang.Proofs.Coherence
import MonkeyLang.Proofs.View
import MonkeyLang.Tree.Canonical

/-!
# The canonical way to write a tree

A coherent tree can be written as a document in one fixed way (`Program.document`): every unary and
binary operation in parentheses, a semicolon behind every binding and result, and one behind a bare
expression if another statement follows.  The parentheses around a condition are those of the
operation, if it is one.  The tokens that the tree keeps are used again, all others are made.

The document is proper (`Program.proper_document`), its tree looks like the one that was written but
for the tokens of bare statements (`Program.view_document`), and its nesting can be read off the
tree: it is the `depth`, in which an operation counts for two levels, since its parentheses do
(`Program.nesting_document_le_iff`).
-/

namespace MonkeyLang

/-! ### Depth -/

mutual

/-- How many expressions are open at once in the canonical text of an expression. -/
def Expression.depth : Expression → Nat
  | .identifier _ | .integer .. | .boolean .. => 1
  | .unary _ _ operand => 2 + operand.depth
  | .binary _ left _ right => 1 + max left.depth (1 + right.depth)
  | .conditional _ condition consequence alternative =>
    max (if condition.isParenthesized then condition.depth else 1 + condition.depth)
      (max consequence.depth (alternativeDepth alternative))
  | .function _ _ body => max 1 body.depth
  | .call _ callee arguments => max callee.depth (argumentDepth arguments)

/-- One more than the largest depth of a value in a block, zero if there is none. -/
def Block.depth : Block → Nat
  | ⟨_, statements⟩ => statementDepth statements

/-- The depth of the value of a statement. -/
def Statement.depth : Statement → Nat
  | .binding _ _ value => value.depth
  | .result _ value => value.depth
  | .expression _ value => value.depth
  | .block body => body.depth

/-- One more than the largest depth of a value in the second block of a choice. -/
def alternativeDepth : Option Block → Nat
  | none => 0
  | some block => block.depth

/-- One more than the largest depth of an argument. -/
def argumentDepth : List Expression → Nat
  | [] => 0
  | argument :: arguments => max (1 + argument.depth) (argumentDepth arguments)

/-- One more than the largest depth of a value in a list of statements. -/
def statementDepth : List Statement → Nat
  | [] => 0
  | statement :: statements => max (1 + statement.depth) (statementDepth statements)

end

theorem Expression.depth_pos (e : Expression) : 0 < e.depth := by
  cases e with
  | identifier _ | integer _ _ | boolean _ _ => exact Nat.zero_lt_one
  | unary _ _ _ | binary _ _ _ _ | function _ _ _ =>
    rw [depth]
    omega
  | conditional _ condition _ _ =>
    have := condition.depth_pos
    rw [depth]
    split <;> omega
  | call _ callee _ =>
    have := callee.depth_pos
    rw [depth]
    omega

/-! ### The document -/

/-- A token of a kind with a fixed spelling, at no place in particular. -/
def Kind.sign (kind : Kind) : Sign kind := ⟨⟨kind, kind.text, .start⟩, rfl⟩

/-- A phrase in parentheses, if it needs them. -/
def Phrase.wrap (phrase : Phrase noGaps) : Bool → Phrase noGaps
  | true => .group Kind.leftParen.sign phrase Kind.rightParen.sign
  | false => phrase

/-- A list with commas that has one more item in front. -/
def Separated.prepend {α : Type} (item : α) : Option (Separated α) → Separated α
  | none => last item
  | some later => more item Kind.comma.sign later

/-- The parameters of a function, separated by commas. -/
def writtenParameters : (parameters : List Identifier) →
    (∀ parameter ∈ parameters, parameter.Coherent) → Option (Separated (Sign .identifier))
  | [], _ => none
  | parameter :: parameters, h =>
    some (.prepend ⟨parameter.token, (h parameter List.mem_cons_self).1.kind⟩
      (writtenParameters parameters fun other member => h other (List.mem_cons_of_mem _ member)))

section
variable {number : String → Int → Prop}

theorem truth_of_fits {token : Token} {value : Bool}
    (h : token.Fits (· = if value then .trueWord else .falseWord)) : token.kind.IsTruth := by
  have kind := h.kind
  cases value with
  | false => rw [show token.kind = .falseWord from kind]; trivial
  | true => rw [show token.kind = .trueWord from kind]; trivial

mutual

/-- An expression as it is written, but for parentheses of its own. -/
def Expression.phrase : (e : Expression) → e.Coherent number → Phrase noGaps
  | .identifier name, h => .name ⟨name.token, h.1.kind⟩
  | .integer token _, h => .numeral ⟨token, h.1.kind⟩
  | .boolean token _, h => .truth ⟨token, truth_of_fits h⟩
  | .unary token _ operand, h =>
    .unary ⟨token, h.1.kind⟩ ((operand.phrase h.2.2).wrap operand.isParenthesized)
  | .binary token left _ right, h =>
    .binary ((left.phrase h.2.2.1).wrap left.isParenthesized) ⟨token, h.1.kind⟩
      ((right.phrase h.2.2.2).wrap right.isParenthesized)
  | .conditional token condition consequence alternative, h =>
    .conditional ⟨token, h.1.kind⟩ Kind.leftParen.sign (condition.phrase h.2.1)
      Kind.rightParen.sign (consequence.passage h.2.2.1) (writtenAlternative alternative h.2.2.2)
  | .function token parameters body, h =>
    .function ⟨token, h.1.kind⟩ Kind.leftParen.sign (writtenParameters parameters h.2.1)
      Kind.rightParen.sign (body.passage h.2.2)
  | .call token callee arguments, h =>
    .call ((callee.phrase h.2.1).wrap callee.isParenthesized) ⟨token, h.1.kind⟩
      (writtenArguments arguments h.2.2) Kind.rightParen.sign

/-- A block as it is written. -/
def Block.passage : (b : Block) → b.Coherent number → Passage noGaps
  | ⟨token, statements⟩, h =>
    .block ⟨token, h.1.kind⟩ (writtenStatements statements h.2) Kind.rightBrace.sign

/-- A statement as it is written, the last one without a semicolon if it is a bare expression. -/
def Statement.clause : (statement : Statement) → statement.Coherent number → (last : Bool) →
    Clause noGaps
  | .binding token name value, h, _ =>
    ⟨.binding ⟨token, h.1.kind⟩ ⟨name.token, h.2.1.1.kind⟩ Kind.assign.sign,
      (value.phrase h.2.2).wrap value.isParenthesized, some Kind.semicolon.sign⟩
  | .result token value, h, _ =>
    ⟨.result ⟨token, h.1.kind⟩, (value.phrase h.2).wrap value.isParenthesized,
      some Kind.semicolon.sign⟩
  | .expression _ value, h, last =>
    ⟨.bare, (value.phrase h).wrap value.isParenthesized,
      if last then none else some Kind.semicolon.sign⟩
  | .block _, h, _ => h.elim

/-- The second block of a choice as it is written. -/
def writtenAlternative : (alternative : Option Block) → CoherentAlternative number alternative →
    Option (Sign .elseWord × Passage noGaps)
  | none, _ => none
  | some block, h => some (Kind.elseWord.sign, block.passage h)

/-- The arguments of a call, separated by commas. -/
def writtenArguments : (arguments : List Expression) → CoherentArguments number arguments →
    Option (Separated (Phrase noGaps))
  | [], _ => none
  | argument :: arguments, h =>
    some (.prepend ((argument.phrase h.1).wrap argument.isParenthesized)
      (writtenArguments arguments h.2))

/-- The statements of a block or program as they are written. -/
def writtenStatements : (statements : List Statement) → CoherentStatements number statements →
    List (Clause noGaps)
  | [], _ => []
  | statement :: statements, h =>
    statement.clause h.1 statements.isEmpty :: writtenStatements statements h.2

end

/-- An expression as it is written. -/
def Expression.written (e : Expression) (h : e.Coherent number) : Phrase noGaps :=
  (e.phrase h).wrap e.isParenthesized

/-- A program as it is written. -/
def Program.document (p : Program) (h : p.Coherent number) : Document noGaps :=
  ⟨writtenStatements p.statements h⟩

/-! ### First lemmas -/

theorem Phrase.tree_wrap (phrase : Phrase noGaps) (b : Bool) :
    (phrase.wrap b).tree = phrase.tree := by
  cases b with
  | false => rfl
  | true => rw [wrap, tree_group]

theorem Phrase.Proper.wrap {phrase : Phrase noGaps} (h : phrase.Proper) (b : Bool) :
    (phrase.wrap b).Proper := by
  cases b with
  | false => exact h
  | true => exact h

theorem Phrase.nesting_wrap (phrase : Phrase noGaps) (b : Bool) :
    (phrase.wrap b).nesting = if b then 1 + phrase.nesting else phrase.nesting := by
  cases b with
  | false => rfl
  | true => rw [wrap, nesting, if_pos rfl]

/-- Whatever is written holds together as tightly as can be. -/
theorem Expression.strength_written (e : Expression) (h : e.Coherent number) :
    (e.written h).strength = .call := by
  cases e <;> rfl

/-! Lists with commas, item by item. -/

theorem separatedTrees_prepend (phrase : Phrase noGaps)
    (list : Option (Separated (Phrase noGaps))) :
    separatedTrees (.prepend phrase list) = phrase.tree :: argumentTrees list := by
  cases list with
  | none => rw [Separated.prepend, separatedTrees, argumentTrees]
  | some later => rw [Separated.prepend, separatedTrees, argumentTrees]

theorem separatedNesting_prepend (phrase : Phrase noGaps)
    (list : Option (Separated (Phrase noGaps))) :
    separatedNesting (.prepend phrase list) = max phrase.nesting (argumentNesting list) := by
  cases list with
  | none => rw [Separated.prepend, separatedNesting, argumentNesting, Nat.max_zero]
  | some later => rw [Separated.prepend, separatedNesting, argumentNesting]

theorem properSeparated_prepend {phrase : Phrase noGaps}
    {list : Option (Separated (Phrase noGaps))} (h : phrase.Proper)
    (others : ProperArguments list) : ProperSeparated (.prepend phrase list) := by
  cases list with
  | none => exact h
  | some later => exact ⟨h, others⟩

/-! ### Nesting -/

mutual

theorem Expression.nesting_written : ∀ (e : Expression) (h : e.Coherent number),
    (e.written h).nesting = e.depth
  | .identifier _, _ | .integer _ _, _ | .boolean _ _, _ => rfl
  | .unary token operator operand, h => by
    have inner := operand.nesting_written h.2.2
    show 1 + (1 + (operand.written h.2.2).nesting) = 2 + operand.depth
    omega
  | .binary token left operator right, h => by
    have first := left.nesting_written h.2.2.1
    have second := right.nesting_written h.2.2.2
    show 1 + max (left.written h.2.2.1).nesting (1 + (right.written h.2.2.2).nesting) =
      1 + max left.depth (1 + right.depth)
    omega
  | .conditional token condition consequence alternative, h => by
    have first := condition.nesting_written h.2.1
    have second := consequence.nesting_passage h.2.2.1
    have third := nesting_writtenAlternative alternative h.2.2.2
    rw [Expression.written, Phrase.nesting_wrap] at first
    show 1 + max (condition.phrase h.2.1).nesting (max (consequence.passage h.2.2.1).nesting
      (alternativeNesting (writtenAlternative alternative h.2.2.2))) =
        max (if condition.isParenthesized then condition.depth else 1 + condition.depth)
          (max consequence.depth (alternativeDepth alternative))
    -- parentheses of its own count for the condition, those of the choice for the choice
    by_cases own : condition.isParenthesized = true
    · rw [if_pos own] at first ⊢
      omega
    · rw [if_neg own] at first ⊢
      have positive := condition.depth_pos
      omega
  | .function token parameters body, h => by
    have inner := body.nesting_passage h.2.2
    show 1 + (body.passage h.2.2).nesting = max 1 body.depth
    omega
  | .call token callee arguments, h => by
    have first := callee.nesting_written h.2.1
    have second := nesting_writtenArguments arguments h.2.2
    have positive := callee.depth_pos
    show max (callee.written h.2.1).nesting
        (1 + argumentNesting (writtenArguments arguments h.2.2)) =
      max callee.depth (argumentDepth arguments)
    omega

theorem Block.nesting_passage : ∀ (b : Block) (h : b.Coherent number),
    1 + (b.passage h).nesting = max 1 b.depth
  | ⟨_, statements⟩, h => nesting_writtenStatements statements h.2

theorem Statement.nesting_clause : ∀ (statement : Statement) (h : statement.Coherent number)
    (last : Bool), (statement.clause h last).nesting = statement.depth
  | .binding _ _ value, h, _ => value.nesting_written h.2.2
  | .result _ value, h, _ => value.nesting_written h.2
  | .expression _ value, h, _ => value.nesting_written h
  | .block _, h, _ => h.elim

theorem nesting_writtenAlternative : ∀ (alternative : Option Block)
    (h : CoherentAlternative number alternative),
    1 + alternativeNesting (writtenAlternative alternative h) = max 1 (alternativeDepth alternative)
  | none, _ => rfl
  | some block, h => block.nesting_passage h

theorem nesting_writtenArguments : ∀ (arguments : List Expression)
    (h : CoherentArguments number arguments),
    1 + argumentNesting (writtenArguments arguments h) = max 1 (argumentDepth arguments)
  | [], _ => rfl
  | argument :: arguments, h => by
    have first := argument.nesting_written h.1
    have second := nesting_writtenArguments arguments h.2
    show 1 + separatedNesting (.prepend (argument.written h.1) _) =
      max 1 (max (1 + argument.depth) (argumentDepth arguments))
    rw [separatedNesting_prepend]
    omega

theorem nesting_writtenStatements : ∀ (statements : List Statement)
    (h : CoherentStatements number statements),
    1 + clauseNesting (writtenStatements statements h) = max 1 (statementDepth statements)
  | [], _ => rfl
  | statement :: statements, h => by
    have first := statement.nesting_clause h.1 statements.isEmpty
    have second := nesting_writtenStatements statements h.2
    show 1 + max (statement.clause h.1 _).nesting
        (clauseNesting (writtenStatements statements h.2)) =
      max 1 (max (1 + statement.depth) (statementDepth statements))
    omega

end

/-- The document is nested as deeply as the deepest value at top level. -/
theorem Program.nesting_document_le_iff (p : Program) (h : p.Coherent number) {n : Nat} :
    (p.document h).nesting ≤ n ↔ ∀ statement ∈ p.statements, statement.depth ≤ n := by
  obtain ⟨statements⟩ := p
  have bound : statementDepth statements ≤ 1 + n ↔
      ∀ statement ∈ statements, statement.depth ≤ n := by
    clear h
    induction statements with
    | nil => simp [statementDepth]
    | cons statement statements ih =>
      rw [statementDepth, Nat.max_le, ih, List.forall_mem_cons, Nat.add_le_add_iff_left]
  have nesting := nesting_writtenStatements statements h
  rw [← bound]
  show clauseNesting (writtenStatements statements h) ≤ n ↔ _
  omega

/-! ### Propriety -/

/-- Any operand is tight enough for any operator. -/
theorem Expression.tight_written (e : Expression) (h : e.Coherent number) (p : Precedence) :
    p ≤ (e.written h).strength := by
  rw [e.strength_written h]
  exact Precedence.le_call p

/-- Only the last statement may lack its semicolon. -/
theorem Statement.semicolon_clause : ∀ (statement : Statement) (h : statement.Coherent number)
    (last : Bool), (statement.clause h last).semicolon = none → last = true
  | .binding .., _, _, missing => absurd missing (Option.some_ne_none _)
  | .result .., _, _, missing => absurd missing (Option.some_ne_none _)
  | .expression .., _, true, _ => rfl
  | .expression .., _, false, missing => absurd missing (Option.some_ne_none _)
  | .block _, h, _, _ => h.elim

mutual

theorem Expression.proper_phrase : ∀ (e : Expression) (h : e.Coherent Denotes),
    (e.phrase h).Proper
  | .identifier _, _ | .boolean _ _, _ => trivial
  | .integer _ _, h => h.2.1
  | .unary token operator operand, h =>
    ⟨operand.tight_written h.2.2 _, (operand.proper_phrase h.2.2).wrap _⟩
  | .binary token left operator right, h => by
    have below : Precedence.ofKind token.kind < (right.written h.2.2.2).strength := by
      rw [right.strength_written h.2.2.2]
      exact Nat.lt_of_lt_of_le h.1.kind.lt_unary (by decide)
    exact ⟨left.tight_written h.2.2.1 _, below, (left.proper_phrase h.2.2.1).wrap _,
      (right.proper_phrase h.2.2.2).wrap _⟩
  | .conditional token condition consequence alternative, h =>
    ⟨condition.proper_phrase h.2.1, consequence.proper_passage h.2.2.1,
      proper_writtenAlternative alternative h.2.2.2⟩
  | .function token parameters body, h => body.proper_passage h.2.2
  | .call token callee arguments, h =>
    ⟨callee.tight_written h.2.1 _, (callee.proper_phrase h.2.1).wrap _,
      proper_writtenArguments arguments h.2.2⟩

theorem Block.proper_passage : ∀ (b : Block) (h : b.Coherent Denotes), (b.passage h).Proper
  | ⟨_, statements⟩, h => proper_writtenStatements statements h.2

theorem Statement.proper_clause : ∀ (statement : Statement) (h : statement.Coherent Denotes)
    (last : Bool), (statement.clause h last).Proper
  | .binding _ _ value, h, _ => (value.proper_phrase h.2.2).wrap _
  | .result _ value, h, _ => (value.proper_phrase h.2).wrap _
  | .expression _ value, h, _ => (value.proper_phrase h).wrap _
  | .block _, h, _ => h.elim

theorem proper_writtenAlternative : ∀ (alternative : Option Block)
    (h : CoherentAlternative Denotes alternative),
    ProperAlternative (writtenAlternative alternative h)
  | none, _ => trivial
  | some block, h => block.proper_passage h

theorem proper_writtenArguments : ∀ (arguments : List Expression)
    (h : CoherentArguments Denotes arguments), ProperArguments (writtenArguments arguments h)
  | [], _ => trivial
  | argument :: arguments, h =>
    properSeparated_prepend ((argument.proper_phrase h.1).wrap _)
      (proper_writtenArguments arguments h.2)

theorem proper_writtenStatements : ∀ (statements : List Statement)
    (h : CoherentStatements Denotes statements), ProperClauses (writtenStatements statements h)
  | [], _ => trivial
  | statement :: statements, h => by
    refine ⟨statement.proper_clause h.1 _, fun none => ?_, proper_writtenStatements statements h.2⟩
    -- nothing follows a statement without a semicolon
    have last := statement.semicolon_clause h.1 _ none
    obtain rfl := List.isEmpty_iff.1 last
    intro token head
    simp [writtenStatements, clauseTokens] at head

end

/-- What is written is proper. -/
theorem Program.proper_document (p : Program) (h : p.Coherent Denotes) : (p.document h).Proper :=
  proper_writtenStatements p.statements h

/-! ### The tree -/

/-- The token that a bare statement keeps is not seen. -/
def View.Blind (v : View) : Prop := ∀ first second, v.lead first = v.lead second

theorem parameterNames_prepend (name : Sign .identifier)
    (list : Option (Separated (Sign .identifier))) :
    parameterNames (some (.prepend name list)) = name.identifier :: parameterNames list := by
  cases list with
  | none => rfl
  | some later => rfl

/-- A coherent name is read from its token. -/
theorem Identifier.Coherent.identifier_eq {name : Identifier} (h : name.Coherent) :
    Sign.identifier ⟨name.token, h.1.kind⟩ = name := by
  obtain ⟨token, text⟩ := name
  obtain rfl : text = token.literal := h.2
  rfl

theorem parameterNames_writtenParameters : ∀ (parameters : List Identifier)
    (h : ∀ parameter ∈ parameters, parameter.Coherent),
    parameterNames (writtenParameters parameters h) = parameters
  | [], _ => rfl
  | parameter :: parameters, h => by
    have others := parameterNames_writtenParameters parameters
      fun other member => h other (List.mem_cons_of_mem _ member)
    have first := (h parameter List.mem_cons_self).identifier_eq
    rw [writtenParameters, parameterNames_prepend, others, first]

section
variable {v : View}

mutual

/-- A tree is that of the phrase by which it is written, but for the tokens of bare statements. -/
theorem Expression.view_phrase (blind : v.Blind) : ∀ (e : Expression) (h : e.Coherent Denotes),
    (e.phrase h).tree.view v = e.view v
  | .identifier name, h => by
    have same : Sign.identifier ⟨name.token, h.1.kind⟩ = name := Identifier.Coherent.identifier_eq h
    simp only [Expression.phrase, Phrase.tree, same]
  | .integer token value, h => by
    simp only [Expression.phrase, Phrase.tree, h.2.2]
  | .boolean token value, h => by
    have same : decide (token.kind = .trueWord) = value := by
      have kind := h.kind
      cases value with
      | false => rw [show token.kind = .falseWord from kind]; rfl
      | true => rw [show token.kind = .trueWord from kind]; rfl
    simp only [Expression.phrase, Phrase.tree, same]
  | .unary token operator operand, h => by
    have inner := operand.view_phrase blind h.2.2
    simp only [Expression.phrase, Phrase.tree, Phrase.tree_wrap, Expression.view, inner, h.2.1]
  | .binary token left operator right, h => by
    have first := left.view_phrase blind h.2.2.1
    have second := right.view_phrase blind h.2.2.2
    simp only [Expression.phrase, Phrase.tree, Phrase.tree_wrap, Expression.view, first, second,
      h.2.1]
  | .conditional token condition consequence alternative, h => by
    have first := condition.view_phrase blind h.2.1
    have second := consequence.view_passage blind h.2.2.1
    have third := view_writtenAlternative blind alternative h.2.2.2
    simp only [Expression.phrase, Phrase.tree, Expression.view, first, second, third]
  | .function token parameters body, h => by
    have inner := body.view_passage blind h.2.2
    simp only [Expression.phrase, Phrase.tree, Expression.view, inner,
      parameterNames_writtenParameters]
  | .call token callee arguments, h => by
    have first := callee.view_phrase blind h.2.1
    have second := view_writtenArguments blind arguments h.2.2
    simp only [Expression.phrase, Phrase.tree, Phrase.tree_wrap, Expression.view, first, second]

theorem Block.view_passage (blind : v.Blind) : ∀ (b : Block) (h : b.Coherent Denotes),
    (b.passage h).tree.view v = b.view v
  | ⟨token, statements⟩, h => by
    have inner := view_writtenStatements blind statements h.2
    simp only [Block.passage, Passage.tree, Block.view, inner]

theorem Statement.view_clause (blind : v.Blind) : ∀ (statement : Statement)
    (h : statement.Coherent Denotes) (last : Bool),
    (statement.clause h last).tree.view v = statement.view v
  | .binding token name value, h, last => by
    have inner := value.view_phrase blind h.2.2
    simp only [Statement.clause, Clause.tree, Lead.statement, Statement.view, Phrase.tree_wrap,
      inner, h.2.1.identifier_eq]
  | .result token value, h, last => by
    have inner := value.view_phrase blind h.2
    simp only [Statement.clause, Clause.tree, Lead.statement, Statement.view, Phrase.tree_wrap,
      inner]
  | .expression token value, h, last => by
    have inner := value.view_phrase blind h
    simp only [Statement.clause, Clause.tree, Lead.statement, Statement.view, Phrase.tree_wrap,
      inner]
    rw [blind token]
  | .block _, h, _ => h.elim

theorem view_writtenAlternative (blind : v.Blind) : ∀ (alternative : Option Block)
    (h : CoherentAlternative Denotes alternative),
    alternativeView v (alternativeTree (writtenAlternative alternative h)) =
      alternativeView v alternative
  | none, _ => rfl
  | some block, h => by
    have inner := block.view_passage blind h
    simp only [writtenAlternative, alternativeTree, alternativeView, inner]

theorem view_writtenArguments (blind : v.Blind) : ∀ (arguments : List Expression)
    (h : CoherentArguments Denotes arguments),
    argumentViews v (argumentTrees (writtenArguments arguments h)) = argumentViews v arguments
  | [], _ => rfl
  | argument :: arguments, h => by
    have first := argument.view_phrase blind h.1
    have others := view_writtenArguments blind arguments h.2
    simp only [writtenArguments, argumentTrees, separatedTrees_prepend, argumentViews,
      Phrase.tree_wrap, first, others]

theorem view_writtenStatements (blind : v.Blind) : ∀ (statements : List Statement)
    (h : CoherentStatements Denotes statements),
    statementViews v (clauseTrees (writtenStatements statements h)) = statementViews v statements
  | [], _ => rfl
  | statement :: statements, h => by
    have first := statement.view_clause blind h.1 statements.isEmpty
    have others := view_writtenStatements blind statements h.2
    simp only [writtenStatements, clauseTrees, statementViews, first, others]

end

/-- A program is the tree of the document by which it is written, but for the tokens of bare
statements. -/
theorem Program.view_document (blind : v.Blind) (p : Program) (h : p.Coherent Denotes) :
    (p.document h).tree.view v = p.view v :=
  congrArg Program.mk (view_writtenStatements blind p.statements h)

end

end

end MonkeyLang
