import MonkeyLang.Proofs.Canonical
import MonkeyLang.Proofs.LongestMatch

/-!
# The tokens that a tree is printed with

`Program.printed` is the sequence of tokens that the canonical text of a program is meant to have:
parentheses around every unary and binary operation and around a condition that is neither, commas
between the items of a list, a semicolon behind every binding and result and behind a bare
expression that has a successor, and nothing else.  It says nothing about places.

A tree is `Legible` if what the printer copies from it can be read again.  The printer copies names,
the texts of integer literals, operators, and the words that begin functions, bindings and results.
Nothing is asked of the other tokens that a tree keeps, nor of the values of its literals.

Every coherent tree is legible (`Program.Coherent.legible`), and the document by which it is written
has these tokens (`Program.map_lexeme_document`).
-/

namespace MonkeyLang

/-- The kind that is spelled so.  A text that is no fixed spelling is that of an illegal token. -/
def Kind.ofText (text : String) : Kind := (all.find? fun kind => kind.text = text).getD illegal

theorem Kind.ofText_text {kind : Kind} (h : kind.text ≠ "") : ofText kind.text = kind := by
  cases kind
  case illegal | endOfInput | identifier | integer => exact absurd rfl h
  all_goals decide +kernel

/-! ### Printed tokens -/

/-- Some tokens between parentheses. -/
def inParentheses (tokens : List Token) : List Token :=
  Kind.leftParen.sign.token :: (tokens ++ [Kind.rightParen.sign.token])

/-- The tokens of a condition between parentheses.  An operation has them already. -/
def inCondition (tokens : List Token) : Expression → List Token
  | .unary _ _ _ | .binary _ _ _ _ => tokens
  | _ => inParentheses tokens

/-- What stands between a statement and its successor. -/
def Statement.separator : Statement → List Token
  | .expression _ _ => [Kind.semicolon.sign.token]
  | _ => []

/-- The token of an operator. -/
def operatorToken (operator : String) : Token := ⟨Kind.ofText operator, operator, .start⟩

/-- The token of a name. -/
def Identifier.printed (name : Identifier) : Token := ⟨.identifier, name.name, .start⟩

/-- The tokens of the parameters of a function, with commas between them. -/
def printedParameters : List Identifier → List Token
  | [] => []
  | [parameter] => [parameter.printed]
  | parameter :: parameters =>
    parameter.printed :: Kind.comma.sign.token :: printedParameters parameters

mutual

/-- The tokens of the canonical text of an expression. -/
def Expression.printed : Expression → List Token
  | .identifier name => [name.printed]
  | .integer token _ => [⟨.integer, token.literal, .start⟩]
  | .boolean _ value => [(if value then Kind.trueWord else .falseWord).sign.token]
  | .unary _ operator operand => inParentheses (operatorToken operator :: operand.printed)
  | .binary _ left operator right =>
    inParentheses (left.printed ++ operatorToken operator :: right.printed)
  | .conditional _ condition consequence alternative =>
    Kind.ifWord.sign.token ::
      (inCondition condition.printed condition ++
        (consequence.printed ++ printedAlternative alternative))
  | .function _ parameters body =>
    Kind.functionWord.sign.token :: (inParentheses (printedParameters parameters) ++ body.printed)
  | .call _ callee arguments => callee.printed ++ inParentheses (printedArguments arguments)

/-- The tokens of the canonical text of a block. -/
def Block.printed : Block → List Token
  | ⟨_, statements⟩ =>
    Kind.leftBrace.sign.token :: (printedStatements statements ++ [Kind.rightBrace.sign.token])

/-- The tokens of the canonical text of a statement. -/
def Statement.printed : Statement → List Token
  | .binding _ name value =>
    Kind.letWord.sign.token :: name.printed :: Kind.assign.sign.token ::
      (value.printed ++ [Kind.semicolon.sign.token])
  | .result _ value =>
    Kind.returnWord.sign.token :: (value.printed ++ [Kind.semicolon.sign.token])
  | .expression _ value => value.printed
  | .block body => body.printed

/-- The tokens of the second block of a choice, if there is one. -/
def printedAlternative : Option Block → List Token
  | none => []
  | some block => Kind.elseWord.sign.token :: block.printed

/-- The tokens of the arguments of a call, with commas between them. -/
def printedArguments : List Expression → List Token
  | [] => []
  | [argument] => argument.printed
  | argument :: arguments =>
    argument.printed ++ Kind.comma.sign.token :: printedArguments arguments

/-- The tokens of some statements.  A bare expression with a successor has a semicolon. -/
def printedStatements : List Statement → List Token
  | [] => []
  | [statement] => statement.printed
  | statement :: statements =>
    statement.printed ++ statement.separator ++ printedStatements statements

end

/-- The tokens of the canonical text of a program. -/
def Program.printed (program : Program) : List Token := printedStatements program.statements

theorem inCondition_eq (tokens : List Token) (condition : Expression) :
    inCondition tokens condition =
      if condition.isParenthesized then tokens else inParentheses tokens := by
  cases condition <;> rfl

theorem Statement.separator_eq (w : Statement) :
    w.separator = if w.isExpression then [Kind.semicolon.sign.token] else [] := by
  cases w <;> rfl

/-! ### Legible trees -/

/-- The name can be read as an identifier. -/
def Identifier.Legible (name : Identifier) : Prop :=
  Lexeme.Spelled ⟨.identifier, name.name.toList⟩

mutual

/-- What is printed of the expression can be read. -/
def Expression.Legible : Expression → Prop
  | .identifier name => name.Legible
  | .integer token _ => Lexeme.Spelled ⟨.integer, token.literal.toList⟩
  | .boolean _ _ => True
  | .unary _ operator operand =>
    (∃ kind : Kind, kind.IsUnary ∧ operator = kind.text) ∧ operand.Legible
  | .binary _ left operator right =>
    (∃ kind : Kind, kind.IsBinary ∧ operator = kind.text) ∧ left.Legible ∧ right.Legible
  | .conditional _ condition consequence alternative =>
    condition.Legible ∧ consequence.Legible ∧ LegibleAlternative alternative
  | .function token parameters body =>
    token.literal = "fn" ∧ (∀ parameter ∈ parameters, parameter.Legible) ∧ body.Legible
  | .call _ callee arguments => callee.Legible ∧ LegibleArguments arguments

/-- What is printed of the block can be read. -/
def Block.Legible : Block → Prop
  | ⟨_, statements⟩ => LegibleStatements statements

/-- What is printed of the statement can be read. -/
def Statement.Legible : Statement → Prop
  | .binding token name value => token.literal = "let" ∧ name.Legible ∧ value.Legible
  | .result token value => token.literal = "return" ∧ value.Legible
  | .expression _ value => value.Legible
  | .block body => body.Legible

/-- What is printed of the second block of a choice can be read. -/
def LegibleAlternative : Option Block → Prop
  | none => True
  | some block => block.Legible

/-- What is printed of the arguments can be read. -/
def LegibleArguments : List Expression → Prop
  | [] => True
  | argument :: arguments => argument.Legible ∧ LegibleArguments arguments

/-- What is printed of the statements can be read. -/
def LegibleStatements : List Statement → Prop
  | [] => True
  | statement :: statements => statement.Legible ∧ LegibleStatements statements

end

/-- What is printed of the program can be read. -/
def Program.Legible (program : Program) : Prop := LegibleStatements program.statements

/-! ### Coherent trees are legible -/

section
variable {token : Token} {kind : Kind} {allowed : Kind → Prop}

/-- A token of a kind with a fixed spelling is spelled that way. -/
theorem Token.Fits.literal_eq_text (h : token.Fits allowed) (fixed : token.kind.text ≠ "") :
    token.literal = token.kind.text :=
  String.toList_inj.1 (h.whole.text_eq fixed)

theorem Token.Fits.literal_eq (h : token.Fits (· = kind)) (fixed : kind.text ≠ "") :
    token.literal = kind.text := by
  have same : token.kind = kind := h.kind
  rw [← same] at fixed ⊢
  exact h.literal_eq_text fixed

theorem Token.Fits.spelled (h : token.Fits (· = kind)) :
    Lexeme.Spelled ⟨kind, token.literal.toList⟩ := by
  have same : token.kind = kind := h.kind
  have spelled := h.whole.spelled
  rwa [Token.lexeme, same] at spelled

theorem Kind.IsUnary.text_ne (h : kind.IsUnary) : kind.text ≠ "" := by
  cases kind
  case illegal | endOfInput | identifier | integer => exact h.elim
  all_goals decide

theorem Kind.IsBinary.text_ne (h : kind.IsBinary) : kind.text ≠ "" := by
  cases kind
  case illegal | endOfInput | identifier | integer => exact h.elim
  all_goals decide

end

variable {number : String → Int → Prop}

theorem Identifier.Coherent.legible {name : Identifier} (h : name.Coherent) : name.Legible := by
  rw [Identifier.Legible, h.2]
  exact h.1.spelled

mutual

theorem Expression.Coherent.legible : ∀ {e : Expression}, e.Coherent number → e.Legible
  | .identifier _, h => Identifier.Coherent.legible h
  | .integer _ _, h => h.1.spelled
  | .boolean _ _, _ => trivial
  | .unary token _ _, h =>
    ⟨⟨token.kind, h.1.kind, h.2.1.trans (h.1.literal_eq_text h.1.kind.text_ne)⟩, h.2.2.legible⟩
  | .binary token _ _ _, h =>
    ⟨⟨token.kind, h.1.kind, h.2.1.trans (h.1.literal_eq_text h.1.kind.text_ne)⟩, h.2.2.1.legible,
      h.2.2.2.legible⟩
  | .conditional _ _ _ alternative, h =>
    ⟨h.2.1.legible, h.2.2.1.legible, legibleAlternative_of_coherent alternative h.2.2.2⟩
  | .function _ _ _, h =>
    ⟨h.1.literal_eq (by decide), fun parameter member => (h.2.1 parameter member).legible,
      h.2.2.legible⟩
  | .call _ _ arguments, h => ⟨h.2.1.legible, legibleArguments_of_coherent arguments h.2.2⟩

theorem Block.Coherent.legible : ∀ {b : Block}, b.Coherent number → b.Legible
  | ⟨_, statements⟩, h => legibleStatements_of_coherent statements h.2

theorem Statement.Coherent.legible : ∀ {w : Statement}, w.Coherent number → w.Legible
  | .binding _ _ _, h => ⟨h.1.literal_eq (by decide), h.2.1.legible, h.2.2.legible⟩
  | .result _ _, h => ⟨h.1.literal_eq (by decide), h.2.legible⟩
  | .expression _ value, h => Expression.Coherent.legible (e := value) h
  | .block _, h => h.elim

theorem legibleAlternative_of_coherent : ∀ alternative : Option Block,
    CoherentAlternative number alternative → LegibleAlternative alternative
  | none, _ => trivial
  | some block, h => Block.Coherent.legible (b := block) h

theorem legibleArguments_of_coherent : ∀ arguments : List Expression,
    CoherentArguments number arguments → LegibleArguments arguments
  | [], _ => trivial
  | _ :: arguments, h => ⟨h.1.legible, legibleArguments_of_coherent arguments h.2⟩

theorem legibleStatements_of_coherent : ∀ statements : List Statement,
    CoherentStatements number statements → LegibleStatements statements
  | [], _ => trivial
  | _ :: statements, h => ⟨h.1.legible, legibleStatements_of_coherent statements h.2⟩

end

/-- What is printed of a coherent program can be read. -/
theorem Program.Coherent.legible {p : Program} (h : p.Coherent number) : p.Legible :=
  legibleStatements_of_coherent p.statements h

/-! ### The tokens of the document -/

section
variable {token : Token} {kind : Kind} {allowed : Kind → Prop}

theorem operatorToken_text (fixed : kind.text ≠ "") :
    operatorToken kind.text = kind.sign.token := by
  rw [operatorToken, Kind.ofText_text fixed]
  rfl

/-- A token of a kind with a fixed spelling is the one that is printed. -/
theorem Token.Fits.lexeme_eq (h : token.Fits (· = kind)) (fixed : kind.text ≠ "") :
    token.lexeme = kind.sign.token.lexeme :=
  Token.lexeme_eq_iff.2 ⟨h.kind, h.literal_eq fixed⟩

theorem Token.Fits.lexeme_operator (h : token.Fits allowed) (fixed : token.kind.text ≠ "") :
    token.lexeme = (operatorToken token.literal).lexeme := by
  rw [h.literal_eq_text fixed, operatorToken_text fixed]
  exact Token.Fits.lexeme_eq ⟨h.whole, rfl⟩ fixed

theorem Identifier.Coherent.lexeme_eq {name : Identifier} (h : name.Coherent) :
    name.token.lexeme = name.printed.lexeme :=
  Token.lexeme_eq_iff.2 ⟨h.1.kind, h.2.symm⟩

end

theorem map_lexeme_inParentheses (tokens : List Token) :
    (inParentheses tokens).map Token.lexeme = Kind.leftParen.sign.token.lexeme ::
      (tokens.map Token.lexeme ++ [Kind.rightParen.sign.token.lexeme]) := by
  simp [inParentheses]

theorem map_lexeme_writtenParameters : ∀ (parameters : List Identifier)
    (h : ∀ parameter ∈ parameters, parameter.Coherent),
    (parameterTokens (writtenParameters parameters h)).map Token.lexeme =
      (printedParameters parameters).map Token.lexeme
  | [], _ => rfl
  | [parameter], h => congrArg (· :: []) (h parameter List.mem_cons_self).lexeme_eq
  | parameter :: next :: parameters, h => by
    obtain ⟨coherent, later⟩ := List.forall_mem_cons.1 h
    have others := map_lexeme_writtenParameters (next :: parameters) later
    show parameter.token.lexeme :: Kind.comma.sign.token.lexeme ::
      (parameterTokens (writtenParameters (next :: parameters) later)).map Token.lexeme = _
    rw [coherent.lexeme_eq, others]
    rfl

mutual

/-- The tokens by which a coherent expression is written are those that are printed. -/
theorem Expression.map_lexeme_written : ∀ (e : Expression) (h : e.Coherent number),
    (e.written h).tokens.map Token.lexeme = e.printed.map Token.lexeme
  | .identifier _, h => congrArg (· :: []) (Identifier.Coherent.lexeme_eq h)
  | .integer token _, h => by
    have same : token.lexeme = Token.lexeme ⟨.integer, token.literal, .start⟩ :=
      Token.lexeme_eq_iff.2 ⟨h.1.kind, rfl⟩
    exact congrArg (· :: []) same
  | .boolean token value, h => by
    cases value with
    | false => exact congrArg (· :: []) (Token.Fits.lexeme_eq h (by decide))
    | true => exact congrArg (· :: []) (Token.Fits.lexeme_eq h (by decide))
  | .unary token operator operand, h => by
    have sign := h.1.lexeme_operator h.1.kind.text_ne
    have inner := operand.map_lexeme_written h.2.2
    show (inParentheses (token :: (operand.written h.2.2).tokens)).map Token.lexeme = _
    simp only [Expression.printed, map_lexeme_inParentheses, List.map_cons, inner, sign, h.2.1]
  | .binary token left operator right, h => by
    have first := left.map_lexeme_written h.2.2.1
    have sign := h.1.lexeme_operator h.1.kind.text_ne
    have second := right.map_lexeme_written h.2.2.2
    show (inParentheses ((left.written h.2.2.1).tokens ++
      token :: (right.written h.2.2.2).tokens)).map Token.lexeme = _
    simp only [Expression.printed, map_lexeme_inParentheses, List.map_append, List.map_cons, first,
      second, sign, h.2.1]
  | .conditional token condition consequence alternative, h => by
    have word := h.1.lexeme_eq (by decide)
    have first := condition.map_lexeme_written h.2.1
    have second := consequence.map_lexeme_passage h.2.2.1
    have third := map_lexeme_writtenAlternative alternative h.2.2.2
    -- the parentheses of the choice are those of the condition, if it has some
    have grouped : (inParentheses (condition.phrase h.2.1).tokens).map Token.lexeme =
        (inCondition condition.printed condition).map Token.lexeme := by
      rw [Expression.written] at first
      rw [inCondition_eq]
      cases own : condition.isParenthesized with
      | true =>
        rw [own] at first
        exact first
      | false =>
        rw [own, Phrase.wrap] at first
        simp only [map_lexeme_inParentheses, first, Bool.false_eq_true, if_false]
    have tokens :
        ((Expression.conditional token condition consequence alternative).written h).tokens =
          token :: (inParentheses (condition.phrase h.2.1).tokens ++
            ((consequence.passage h.2.2.1).tokens ++
              alternativeTokens (writtenAlternative alternative h.2.2.2))) := by
      simp [Expression.written, Expression.phrase, Expression.isParenthesized, Phrase.wrap,
        Phrase.tokens, inParentheses]
    simp only [tokens, Expression.printed, List.map_cons, List.map_append, word, grouped, second,
      third]
  | .function token parameters body, h => by
    have word := h.1.lexeme_eq (by decide)
    have first := map_lexeme_writtenParameters parameters h.2.1
    have second := body.map_lexeme_passage h.2.2
    have tokens : ((Expression.function token parameters body).written h).tokens =
        token :: (inParentheses (parameterTokens (writtenParameters parameters h.2.1)) ++
          (body.passage h.2.2).tokens) := by
      simp [Expression.written, Expression.phrase, Expression.isParenthesized, Phrase.wrap,
        Phrase.tokens, inParentheses]
    simp only [tokens, Expression.printed, List.map_cons, List.map_append,
      map_lexeme_inParentheses, word, first, second]
  | .call token callee arguments, h => by
    have first := callee.map_lexeme_written h.2.1
    have sign := h.1.lexeme_eq (by decide)
    have second := map_lexeme_writtenArguments arguments h.2.2
    show ((callee.written h.2.1).tokens ++ token ::
      (argumentTokens (writtenArguments arguments h.2.2) ++
        [Kind.rightParen.sign.token])).map Token.lexeme = _
    simp only [Expression.printed, map_lexeme_inParentheses, List.map_append, List.map_cons,
      List.map_nil, first, sign, second]

theorem Block.map_lexeme_passage : ∀ (b : Block) (h : b.Coherent number),
    (b.passage h).tokens.map Token.lexeme = b.printed.map Token.lexeme
  | ⟨token, statements⟩, h => by
    have sign := h.1.lexeme_eq (by decide)
    have inner := map_lexeme_writtenStatements statements h.2
    show (token :: (clauseTokens (writtenStatements statements h.2) ++
      [Kind.rightBrace.sign.token])).map Token.lexeme = _
    simp only [Block.printed, List.map_cons, List.map_append, sign, inner]

theorem Statement.map_lexeme_clause : ∀ (w : Statement) (h : w.Coherent number) (last : Bool),
    (w.clause h last).tokens.map Token.lexeme =
      (w.printed ++ if last then [] else w.separator).map Token.lexeme
  | .binding token name value, h, last => by
    have word := h.1.lexeme_eq (by decide)
    have bound := h.2.1.lexeme_eq
    have inner := value.map_lexeme_written h.2.2
    show (token :: name.token :: Kind.assign.sign.token ::
      ((value.written h.2.2).tokens ++ [Kind.semicolon.sign.token])).map Token.lexeme = _
    simp [Statement.printed, Statement.separator, word, bound, inner]
  | .result token value, h, last => by
    have word := h.1.lexeme_eq (by decide)
    have inner := value.map_lexeme_written h.2
    show (token :: ((value.written h.2).tokens ++
      [Kind.semicolon.sign.token])).map Token.lexeme = _
    simp [Statement.printed, Statement.separator, word, inner]
  | .expression _ value, h, last => by
    -- the only semicolon that depends on what follows
    have inner := value.map_lexeme_written h
    show ((value.written h).tokens ++ ((if last then none
      else some Kind.semicolon.sign).map Lexed.token).toList).map Token.lexeme = _
    cases last <;> simp [Statement.printed, Statement.separator, inner]
  | .block _, h, _ => h.elim

theorem map_lexeme_writtenAlternative : ∀ (alternative : Option Block)
    (h : CoherentAlternative number alternative),
    (alternativeTokens (writtenAlternative alternative h)).map Token.lexeme =
      (printedAlternative alternative).map Token.lexeme
  | none, _ => rfl
  | some block, h => congrArg (_ :: ·) (block.map_lexeme_passage h)

theorem map_lexeme_writtenArguments : ∀ (arguments : List Expression)
    (h : CoherentArguments number arguments),
    (argumentTokens (writtenArguments arguments h)).map Token.lexeme =
      (printedArguments arguments).map Token.lexeme
  | [], _ => rfl
  | [argument], h => argument.map_lexeme_written h.1
  | argument :: next :: arguments, h => by
    have first := argument.map_lexeme_written h.1
    have others := map_lexeme_writtenArguments (next :: arguments) h.2
    show ((argument.written h.1).tokens ++ Kind.comma.sign.token ::
      argumentTokens (writtenArguments (next :: arguments) h.2)).map Token.lexeme = _
    simp only [printedArguments, List.map_append, List.map_cons, first, others]

theorem map_lexeme_writtenStatements : ∀ (statements : List Statement)
    (h : CoherentStatements number statements),
    (clauseTokens (writtenStatements statements h)).map Token.lexeme =
      (printedStatements statements).map Token.lexeme
  | [], _ => rfl
  | [statement], h => by
    have first := statement.map_lexeme_clause h.1 true
    show ((statement.clause h.1 true).tokens ++ []).map Token.lexeme = _
    simpa [printedStatements] using first
  | statement :: next :: statements, h => by
    have first := statement.map_lexeme_clause h.1 false
    have others := map_lexeme_writtenStatements (next :: statements) h.2
    show ((statement.clause h.1 false).tokens ++
      clauseTokens (writtenStatements (next :: statements) h.2)).map Token.lexeme = _
    simp [printedStatements, first, others]

end

/-- The document by which a coherent program is written has the tokens that are printed. -/
theorem Program.map_lexeme_document (p : Program) (h : p.Coherent number) :
    (p.document h).tokens.map Token.lexeme = p.printed.map Token.lexeme :=
  map_lexeme_writtenStatements p.statements h

end MonkeyLang
