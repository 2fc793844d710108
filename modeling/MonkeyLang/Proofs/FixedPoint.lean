import MonkeyLang.Proofs.Alike
import MonkeyLang.Proofs.Limit
import MonkeyLang.Proofs.Printing
import MonkeyLang.Proofs.Soundness

/-!
# The canonical text is a fixed point

The canonical text of a program that comes of parsing is parsed again without fault exactly if no
value at top level is deeper than the limit, and then it gives the same program and so the same text
(`faults_canonicalText`).  It does not matter whether the first text had faults.

The tokens of the canonical text are those of a proper document, up to their places
(`Program.all_render`), whose nesting is the depth of the program
(`Program.nesting_document_le_iff`).  So the one direction is that a proper document within the
limit is read, wherever its tokens stand (`Parsed.ofTokens_of_lexemes`).  For the other one, a clean
parse gives back a document within the limit (`Parsed.ofTokens_sound`).  It need not be the one that
was written, but its tokens are, and they are parsed cleanly only if what was written is within the
limit, too (`Parsed.nesting_le_of_clean`).
-/

namespace MonkeyLang

/-- What a canonical text determines of a tree: all but the places of tokens, and the token that a
bare statement keeps. -/
def View.content : View := ⟨Token.spelling, fun _ => .endOfInput .start, fun _ => false⟩

theorem View.content_blind : View.content.Blind := fun _ _ => rfl

/-- Tokens of the same kinds and spellings are alike. -/
theorem alike_of_lexemes {gaps : GapRule} {tokens tokens' : List Token}
    (h : tokens'.map Token.lexeme = tokens.map Token.lexeme) :
    Alike .content .content gaps tokens tokens' := by
  induction tokens generalizing tokens' with
  | nil =>
    obtain rfl : tokens' = [] := by simpa using h
    exact .nil
  | cons token tokens ih =>
    cases tokens' with
    | nil => simp at h
    | cons token' tokens' =>
      obtain ⟨head, tail⟩ := List.cons.inj h
      obtain ⟨kind, literal⟩ := Token.lexeme_eq_iff.1 head
      have spelling : token'.spelling = token.spelling :=
        Token.spelling_eq_iff.2 ⟨kind, literal⟩
      exact .cons ⟨kind, literal, spelling, rfl, rfl⟩ (ih tail)

/-! ### The text of what is seen -/

theorem renderParameters_view (parameters : List Identifier) :
    renderParameters (parameters.map (Identifier.view .content)) = renderParameters parameters := by
  induction parameters with
  | nil => rfl
  | cons parameter parameters ih =>
    cases parameters with
    | nil => rfl
    | cons next parameters =>
      simp only [List.map_cons, renderParameters, Identifier.view] at ih ⊢
      rw [ih]

theorem Expression.isParenthesized_view (e : Expression) (v : View) :
    (e.view v).isParenthesized = e.isParenthesized := by
  cases e <;> rfl

theorem Statement.isExpression_view (statement : Statement) (v : View) :
    (statement.view v).isExpression = statement.isExpression := by
  cases statement <;> rfl

mutual

/-- The canonical text only depends on what it determines. -/
theorem Expression.render_view : ∀ e : Expression, (e.view .content).render = e.render
  | .identifier _ | .integer _ _ | .boolean _ _ => rfl
  | .unary _ _ operand => by
    simp only [Expression.view, Expression.render, operand.render_view]
  | .binary _ left _ right => by
    simp only [Expression.view, Expression.render, left.render_view, right.render_view]
  | .conditional _ condition consequence alternative => by
    simp only [Expression.view, Expression.render, condition.render_view, consequence.render_view,
      condition.isParenthesized_view, renderAlternative_view alternative]
  | .function _ parameters body => by
    simp only [Expression.view, Expression.render, body.render_view, renderParameters_view]
    rfl
  | .call _ callee arguments => by
    simp only [Expression.view, Expression.render, callee.render_view,
      renderArguments_view arguments]

theorem Block.render_view : ∀ b : Block, (b.view .content).render = b.render
  | ⟨_, []⟩ => rfl
  | ⟨_, statement :: statements⟩ => by
    have inner := renderStatements_view (statement :: statements)
    show "\x7b " ++ renderStatements (statementViews .content (statement :: statements)) ++
      " \x7d" = _
    rw [inner]
    rfl

theorem Statement.render_view : ∀ statement : Statement,
    (statement.view .content).render = statement.render
  | .binding _ _ value => by
    simp only [Statement.view, Statement.render, value.render_view]
    rfl
  | .result _ value => by
    simp only [Statement.view, Statement.render, value.render_view]
    rfl
  | .expression _ value => by simp only [Statement.view, Statement.render, value.render_view]
  | .block body => by simp only [Statement.view, Statement.render, body.render_view]

theorem renderAlternative_view : ∀ alternative : Option Block,
    renderAlternative (alternativeView .content alternative) = renderAlternative alternative
  | none => rfl
  | some block => by simp only [alternativeView, renderAlternative, block.render_view]

theorem renderArguments_view : ∀ arguments : List Expression,
    renderArguments (argumentViews .content arguments) = renderArguments arguments
  | [] => rfl
  | [argument] => by simp only [argumentViews, renderArguments, argument.render_view]
  | argument :: next :: arguments => by
    have others := renderArguments_view (next :: arguments)
    simp only [argumentViews, renderArguments, argument.render_view] at others ⊢
    rw [others]

theorem renderStatements_view : ∀ statements : List Statement,
    renderStatements (statementViews .content statements) = renderStatements statements
  | [] => rfl
  | [statement] => by simp only [statementViews, renderStatements, statement.render_view]
  | statement :: next :: statements => by
    have others := renderStatements_view (next :: statements)
    simp only [statementViews, renderStatements, statement.render_view,
      statement.isExpression_view] at others ⊢
    rw [others]

end

theorem Program.render_view (p : Program) : (p.view .content).render = p.render :=
  renderStatements_view p.statements

/-- Programs with the same content have the same canonical text. -/
theorem Program.render_eq_of_view {p q : Program} (h : p.view .content = q.view .content) :
    p.render = q.render := by
  rw [← p.render_view, h, q.render_view]

/-! ### The fixed point -/

/-- The tokens of the canonical text are those of the document, up to their places. -/
theorem Program.map_lexeme_tokens_render (p : Program) (h : p.Coherent Denotes) :
    (Lexer.ofString p.render).tokens.map Token.lexeme = (p.document h).tokens.map Token.lexeme :=
  (Lexer.map_lexeme_tokens _).trans (p.all_render h)

/-- Tokens that are those of a proper document within some limit, up to their places, are read, and
the program has the content of the document. -/
theorem Parsed.ofTokens_of_lexemes {document : Document noGaps} {tokens : List Token}
    {limit : Nat} (proper : document.Proper) (within : document.nesting ≤ limit)
    (same : tokens.map Token.lexeme = document.tokens.map Token.lexeme) (finish : Location) :
    (ofTokens limit tokens finish).faults = [] ∧
      (ofTokens limit tokens finish).program.view .content =
        document.tree.view .content := by
  obtain ⟨placed, rfl, view, nesting, placed_proper⟩ : ∃ placed : Document noGaps, _ :=
    document.carried (alike_of_lexemes same)
  have fills : Fills noGaps (fun _ => False) .content := fills_noGaps
  obtain ⟨faults, program⟩ := ofTokens_complete fills (placed_proper proper)
    (Nat.le_trans nesting within) finish
  constructor
  · exact List.eq_nil_iff_forall_not_mem.2 fun fault member => faults fault member
  · rw [program, view]

/-- A program within the limit is read from its canonical text. -/
theorem Program.ofString_render (p : Program) (h : p.Coherent Denotes)
    (within : ∀ statement ∈ p.statements, statement.depth ≤ maxNesting) :
    (Parsed.ofString p.render).faults = [] ∧
      (Parsed.ofString p.render).program.view .content = p.view .content := by
  rw [← p.view_document View.content_blind h]
  exact Parsed.ofTokens_of_lexemes (p.proper_document h) ((p.nesting_document_le_iff h).2 within)
    (p.map_lexeme_tokens_render h) (Lexer.ofString p.render).finish

/-- A program that is read from its canonical text is within the limit. -/
theorem Program.depth_le_of_clean (p : Program) (h : p.Coherent Denotes)
    (clean : (Parsed.ofString p.render).faults = []) :
    ∀ statement ∈ p.statements, statement.depth ≤ maxNesting := by
  obtain ⟨read, tokens, -, proper, nesting⟩ : ∃ document : Document noGaps, _ :=
    Parsed.ofTokens_sound (Lexer.ofString p.render).kind_ne_of_mem_tokens clean
  -- what was written is parsed cleanly, too, having the tokens of what was read
  have same : (p.document h).tokens.map Token.lexeme = read.tokens.map Token.lexeme := by
    rw [tokens, p.map_lexeme_tokens_render h]
  have clean' := (Parsed.ofTokens_of_lexemes proper nesting same .start).1
  exact (p.nesting_document_le_iff h).1 (Parsed.nesting_le_of_clean (p.proper_document h) clean')

/-- The canonical text of what can be read of a source text. -/
def canonicalText (source : String) : String := (Parsed.ofString source).program.render

/-- **The canonical text is a fixed point** within the limit and nowhere else.  For every source
text, with or without faults, the canonical text is parsed without fault exactly if no value at top
level is deeper than the limit.  Then the program is the same but for the places of tokens and the
tokens of bare statements, and the canonical text is the canonical text of itself. -/
theorem faults_canonicalText (source : String) :
    ((Parsed.ofString (canonicalText source)).faults = [] ↔
        ∀ statement ∈ (Parsed.ofString source).program.statements,
          statement.depth ≤ maxNesting) ∧
      ((∀ statement ∈ (Parsed.ofString source).program.statements,
          statement.depth ≤ maxNesting) →
        (Parsed.ofString (canonicalText source)).program.view .content =
            (Parsed.ofString source).program.view .content ∧
          canonicalText (canonicalText source) = canonicalText source) := by
  have coherent : (Parsed.ofString source).program.Coherent Denotes :=
    Parsed.coherent_ofString source
  refine ⟨⟨Program.depth_le_of_clean _ coherent, fun within => ?_⟩, fun within => ?_⟩
  · exact (Program.ofString_render _ coherent within).1
  · have same := (Program.ofString_render _ coherent within).2
    exact ⟨same, Program.render_eq_of_view same⟩

end MonkeyLang
