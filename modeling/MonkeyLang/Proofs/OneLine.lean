import MonkeyLang.Proofs.FixedPoint
import MonkeyLang.Proofs.LongestMatch
import MonkeyLang.Text.Blank

/-!
# The canonical text stands on one line

The canonical text of a program has no white space in it but spaces (`Program.oneLine_render`), so
it has no line end of its own; and if there is a statement at all, it is not blank
(`Program.isBlank_render`).

White space means two things here.  The lexer skips four characters, and a text is blank if it
consists of any of the twenty-five of Unicode.  The others are illegal to the lexer, so a text that
is not blank has a token, and if it is parsed without fault, then it has a statement
(`Parsed.statements_ne_nil`).
-/

namespace MonkeyLang

/-- The text has no white space but spaces. -/
def OneLine (text : String) : Prop := ∀ c ∈ text.toList, c = ' ' ∨ isWhiteSpace c = false

instance (text : String) : Decidable (OneLine text) := List.decidableBAll _ text.toList

section
variable {first second text : String}

theorem oneLine_append : OneLine (first ++ second) ↔ OneLine first ∧ OneLine second := by
  rw [OneLine, String.toList_append]
  exact List.forall_mem_append

/-- There is no line end in the text. -/
theorem OneLine.not_mem (h : OneLine text) : '\n' ∉ text.toList ∧ '\r' ∉ text.toList := by
  constructor <;> intro member <;> exact absurd (h _ member) (by decide)

end

/-! ### White space -/

/-- The printing characters of ASCII are no white space. -/
theorem isWhiteSpace_of_printing {c : Char} (low : 33 ≤ c.toNat) (high : c.toNat ≤ 126) :
    isWhiteSpace c = false := by
  simp [isWhiteSpace, whiteSpaceRanges]
  omega

theorem isWhiteSpace_of_isLetter {c : Char} (h : isLetter c = true) : isWhiteSpace c = false := by
  rcases Lexeme.toNat_of_isLetter h with ⟨low, high⟩ | ⟨low, high⟩ | rfl
  · exact isWhiteSpace_of_printing (Nat.le_trans (by decide) low) (Nat.le_trans high (by decide))
  · exact isWhiteSpace_of_printing (Nat.le_trans (by decide) low) (Nat.le_trans high (by decide))
  · rfl

theorem isWhiteSpace_of_isDigit {c : Char} (h : c.isDigit = true) : isWhiteSpace c = false := by
  obtain ⟨low, high⟩ : 48 ≤ c.toNat ∧ c.toNat ≤ 57 := Char.isDigit_iff_toNat.1 h
  exact isWhiteSpace_of_printing (Nat.le_trans (by decide) low) (Nat.le_trans high (by decide))

/-- No spelling has white space in it. -/
theorem Kind.oneLine_text (kind : Kind) : OneLine kind.text := by
  cases kind <;> decide +kernel

/-- Only an illegal token may have white space in it. -/
theorem Token.Fits.oneLine {allowed : Kind → Prop} {token : Token} (h : token.Fits allowed)
    (known : ¬allowed .illegal) : OneLine token.literal := by
  have spelled := h.whole.spelled
  generalize same : token.lexeme = lexeme at spelled
  intro c member
  cases spelled with
  | fixed kind =>
    have text : token.literal.toList = kind.text.toList := (Lexeme.mk.inj same).2
    exact kind.oneLine_text c (text ▸ member)
  | name _ letters =>
    exact .inr (isWhiteSpace_of_isLetter (letters c ((Lexeme.mk.inj same).2 ▸ member)))
  | number _ digits =>
    exact .inr (isWhiteSpace_of_isDigit (digits c ((Lexeme.mk.inj same).2 ▸ member)))
  | stray =>
    have kind : token.kind = .illegal := (Lexeme.mk.inj same).1
    exact absurd (kind ▸ h.kind) known

/-! ### The canonical text -/

variable {number : String → Int → Prop}

theorem Identifier.Coherent.oneLine {name : Identifier} (h : name.Coherent) :
    OneLine name.name := by
  rw [h.2]
  exact h.1.oneLine (by decide)

theorem oneLine_renderParameters {parameters : List Identifier}
    (h : ∀ parameter ∈ parameters, parameter.Coherent) : OneLine (renderParameters parameters) := by
  fun_induction renderParameters parameters with
  | case1 => decide
  | case2 parameter => exact (h parameter List.mem_cons_self).oneLine
  | case3 parameter parameters _ ih =>
    obtain ⟨first, others⟩ := List.forall_mem_cons.1 h
    simp only [oneLine_append]
    exact ⟨⟨first.oneLine, by decide⟩, ih others⟩

mutual

theorem Expression.oneLine_render : ∀ e : Expression, e.Coherent number → OneLine e.render
  | .identifier _, h => h.oneLine
  | .integer _ _, h => h.1.oneLine (by decide)
  | .boolean _ value, _ => by
    rw [Expression.render]
    cases value <;> decide
  | .unary _ _ operand, h => by
    obtain ⟨fits, rfl, inside⟩ := h
    simp only [Expression.render, oneLine_append]
    exact ⟨⟨⟨by decide, fits.oneLine id⟩, operand.oneLine_render inside⟩, by decide⟩
  | .binary _ left _ right, h => by
    obtain ⟨fits, rfl, first, second⟩ := h
    simp only [Expression.render, oneLine_append]
    exact ⟨⟨⟨⟨⟨⟨by decide, left.oneLine_render first⟩, by decide⟩, fits.oneLine id⟩, by decide⟩,
      right.oneLine_render second⟩, by decide⟩
  | .conditional _ condition consequence alternative, h => by
    obtain ⟨-, first, second, third⟩ := h
    have grouped : OneLine (if condition.isParenthesized then condition.render
        else "(" ++ condition.render ++ ")") := by
      split
      · exact condition.oneLine_render first
      · simp only [oneLine_append]
        exact ⟨⟨by decide, condition.oneLine_render first⟩, by decide⟩
    simp only [Expression.render, oneLine_append]
    exact ⟨⟨⟨⟨by decide, grouped⟩, by decide⟩, consequence.oneLine_render second⟩,
      oneLine_renderAlternative alternative third⟩
  | .function _ parameters body, h => by
    obtain ⟨word, names, inside⟩ := h
    simp only [Expression.render, oneLine_append]
    exact ⟨⟨⟨⟨word.oneLine (by decide), by decide⟩, oneLine_renderParameters names⟩, by decide⟩,
      body.oneLine_render inside⟩
  | .call _ callee arguments, h => by
    obtain ⟨-, first, others⟩ := h
    simp only [Expression.render, oneLine_append]
    exact ⟨⟨⟨callee.oneLine_render first, by decide⟩, oneLine_renderArguments arguments others⟩,
      by decide⟩

theorem Block.oneLine_render : ∀ b : Block, b.Coherent number → OneLine b.render
  | ⟨_, statements⟩, h => by
    rw [Block.render]
    split
    · decide
    · simp only [oneLine_append]
      exact ⟨⟨by decide, oneLine_renderStatements statements h.2⟩, by decide⟩

theorem Statement.oneLine_render : ∀ w : Statement, w.Coherent number → OneLine w.render
  | .binding _ _ value, h => by
    obtain ⟨word, name, inside⟩ := h
    simp only [Statement.render, oneLine_append]
    exact ⟨⟨⟨⟨⟨word.oneLine (by decide), by decide⟩, name.oneLine⟩, by decide⟩,
      value.oneLine_render inside⟩, by decide⟩
  | .result _ value, h => by
    obtain ⟨word, inside⟩ := h
    simp only [Statement.render, oneLine_append]
    exact ⟨⟨⟨word.oneLine (by decide), by decide⟩, value.oneLine_render inside⟩, by decide⟩
  | .expression _ value, h => value.oneLine_render h

theorem oneLine_renderAlternative : ∀ alternative : Option Block,
    CoherentAlternative number alternative → OneLine (renderAlternative alternative)
  | none, _ => by decide
  | some block, h => by
    simp only [renderAlternative, oneLine_append]
    exact ⟨by decide, block.oneLine_render h⟩

theorem oneLine_renderArguments : ∀ arguments : List Expression,
    CoherentArguments number arguments → OneLine (renderArguments arguments)
  | [], _ => by decide
  | [argument], h => argument.oneLine_render h.1
  | argument :: next :: arguments, h => by
    simp only [renderArguments, oneLine_append]
    exact ⟨⟨argument.oneLine_render h.1, by decide⟩,
      oneLine_renderArguments (next :: arguments) h.2⟩

theorem oneLine_renderStatements : ∀ statements : List Statement,
    CoherentStatements number statements → OneLine (renderStatements statements)
  | [], _ => by decide
  | [statement], h => statement.oneLine_render h.1
  | statement :: next :: statements, h => by
    have separator : OneLine (if statement.isExpression then "; " else " ") := by
      split <;> decide
    simp only [renderStatements, oneLine_append]
    exact ⟨⟨statement.oneLine_render h.1, separator⟩,
      oneLine_renderStatements (next :: statements) h.2⟩

end

/-- The canonical text of a program has no white space in it but spaces. -/
theorem Program.oneLine_render (p : Program) (h : p.Coherent number) : OneLine p.render :=
  oneLine_renderStatements p.statements h

/-! ### Blank texts -/

/-- The lexer skips white space only. -/
theorem isWhiteSpace_of_isSpace {c : Char} (h : isSpace c = true) : isWhiteSpace c = true := by
  simp only [isSpace, Bool.or_eq_true, decide_eq_true_eq] at h
  rcases h with ((rfl | rfl) | rfl) | rfl <;> rfl

/-- A text without tokens is blank. -/
theorem isBlank_of_all_eq_nil {text : String} (h : Lexeme.all text.toList = []) :
    isBlank text = true := by
  have spaces : AllSpace text.toList := by
    cases ahead : text.toList.dropWhile isSpace with
    | nil => exact allSpace_of_dropWhile_eq ahead
    | cons c rest =>
      rw [Lexeme.all_of_ahead ahead] at h
      exact absurd h (List.cons_ne_nil _ _)
  exact List.all_eq_true.2 fun c member => isWhiteSpace_of_isSpace (spaces c member)

/-- A text on one line has no tokens if it is blank. -/
theorem OneLine.all_eq_nil {text : String} (h : OneLine text) (blank : isBlank text = true) :
    Lexeme.all text.toList = [] := by
  have spaces : AllSpace text.toList := by
    intro c member
    have white := List.all_eq_true.1 blank c member
    rcases h c member with rfl | notWhite
    · rfl
    · rw [notWhite] at white
      exact absurd white (by decide)
  exact Lexeme.all_of_blank spaces.dropWhile_eq

/-- A document with a statement has a token. -/
theorem clauseTokens_ne_nil {gaps : GapRule} {clauses : List (Clause gaps)} (h : clauses ≠ []) :
    clauseTokens clauses ≠ [] := by
  cases clauses with
  | nil => exact absurd rfl h
  | cons clause clauses =>
    obtain ⟨token, more, tokens, -⟩ := clause.tokens_eq_cons
    rw [clauseTokens, tokens]
    exact List.cons_ne_nil _ _

/-- The canonical text of a program with a statement is not blank. -/
theorem Program.isBlank_render {p : Program} (h : p.Coherent Denotes)
    (nonempty : p.statements ≠ []) : isBlank p.render = false := by
  refine Bool.eq_false_iff.2 fun blank => ?_
  have written : (p.document h).clauses ≠ [] := by
    obtain ⟨statements⟩ := p
    cases statements with
    | nil => exact absurd rfl nonempty
    | cons statement statements => exact List.cons_ne_nil _ _
  have read := p.all_render h
  rw [(p.oneLine_render h).all_eq_nil blank] at read
  exact clauseTokens_ne_nil written (List.map_eq_nil_iff.1 read.symm)

/-- A text that is not blank has a statement, if it is parsed without fault. -/
theorem Parsed.statements_ne_nil {source : String} (nonBlank : isBlank source = false)
    (clean : (ofString source).faults = []) : (ofString source).program.statements ≠ [] := by
  intro none
  obtain ⟨document, tokens, tree, -⟩ : ∃ document : Document noGaps, _ :=
    ofTokens_sound (Lexer.ofString source).kind_ne_of_mem_tokens clean
  have nothing : document.clauses = [] := by
    have trees : clauseTrees document.clauses = [] := by
      rw [← none]
      exact congrArg Program.statements tree
    cases clauses : document.clauses with
    | nil => rfl
    | cons clause clauses' => simp [clauses, clauseTrees] at trees
  have read : (Lexer.ofString source).tokens = [] := by
    rw [← tokens, Document.tokens, nothing, clauseTokens]
  have lexemes := Lexer.map_lexeme_tokens (.ofString source)
  rw [read] at lexemes
  exact absurd (isBlank_of_all_eq_nil lexemes.symm) (by rw [nonBlank]; decide)

end MonkeyLang
