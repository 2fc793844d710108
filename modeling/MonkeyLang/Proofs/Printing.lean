import MonkeyLang.Proofs.Completeness
import MonkeyLang.Proofs.Legibility

/-!
# Reading the canonical text of a tree

The lexer reads the canonical text of a legible tree as the tokens that the tree is printed with: no
two of them run together, and none is torn apart (`Lexer.tokenize_render`).  For a coherent tree
these are the tokens of the document by which it is written (`Program.all_render`).

A piece of text `Spells` some tokens if they are read from it whatever follows, as long as that does
not prolong the last of them.  The canonical text is put together from such pieces with spaces and
delimiters in between.  One place needs more than that: nothing separates an operator from its
operand, so that `!` would run together with an operand that begins with `=`.  No operand does,
since none begins with such a token (`Expression.printed_eq_cons`).
-/

namespace MonkeyLang

open Lexeme

/-- From the text the tokens are read, whatever follows that does not prolong them. -/
def Spells (text : List Char) (tokens : List Token) : Prop :=
  ∀ ⦃rest : List Char⦄, Breaks rest →
    all (text ++ rest) = tokens.map Token.lexeme ++ all rest

/-! ### Pieces of text -/

section
variable {c : Char} {text text' : List Char} {token : Token} {tokens tokens' : List Token}

theorem Lexeme.Breaks.append {rest : List Char} (h : Breaks text) (h' : Breaks rest) :
    Breaks (text ++ rest) := by
  cases text with
  | nil => exact h'
  | cons c text => exact h

theorem spells_nil : Spells [] [] := fun _ _ => rfl

theorem Spells.append (h : Spells text tokens) (breaks : Breaks text')
    (h' : Spells text' tokens') : Spells (text ++ text') (tokens ++ tokens') := by
  intro rest ends
  rw [List.append_assoc, h (breaks.append ends), h' ends, List.map_append, List.append_assoc]

theorem Spells.space (h : Spells text tokens) : Spells (' ' :: text) tokens := by
  intro rest ends
  rw [List.cons_append, all_space, h ends]

/-- Pieces with a space between them never run together. -/
theorem Spells.spaced (h : Spells text tokens) (h' : Spells text' tokens') :
    Spells (text ++ ' ' :: text') (tokens ++ tokens') :=
  h.append (breaks_space _) h'.space

theorem spells_token (whole : token.lexeme.Whole) : Spells token.literal.toList [token] :=
  fun _ ends => all_append_of_breaks whole ends

/-- A sign of one character, which does not run together with what follows. -/
theorem Spells.sign (whole : token.lexeme.Whole) (sign : token.literal.toList = [c])
    (symbol : isLetter c = false ∧ c.isDigit = false)
    (apart : c = '=' ∨ c = '!' → ∀ rest, Breaks rest → (text ++ rest).head? ≠ some '=')
    (h : Spells text tokens) : Spells (c :: text) (token :: tokens) := by
  -- the token is what is read from the character alone
  obtain ⟨d, more, shape, notSpace, read⟩ := whole
  obtain ⟨rfl, rfl⟩ := List.cons.inj (sign.symm.trans shape)
  obtain ⟨same, -⟩ := Prod.mk.inj
    ((first_of_symbol symbol.1 symbol.2 (by simp)).symm.trans read)
  intro rest ends
  rw [List.cons_append, all_cons notSpace,
    first_of_symbol symbol.1 symbol.2 fun sign => apart sign rest ends, h ends, same]
  rfl

/-- A text that is read as beginning with neither `=` nor `==` does not begin with that
character. -/
theorem Spells.head_ne (h : Spells text (token :: tokens)) (notAssign : token.kind ≠ .assign)
    (notEqual : token.kind ≠ .equal) {rest : List Char} (ends : Breaks rest) :
    (text ++ rest).head? ≠ some '=' := by
  intro head
  obtain ⟨more, shape⟩ := List.head?_eq_some_iff.1 head
  have read := h ends
  rw [shape, all_cons rfl] at read
  have kind : (first '=' more).1.kind = token.kind :=
    congrArg Lexeme.kind (List.cons.inj read).1
  have reading := reading_first '=' more
  generalize first '=' more = result at reading kind
  cases reading with
  | word letter => exact absurd letter (by decide)
  | number _ digit => exact absurd digit (by decide)
  | equal => exact notEqual kind.symm
  | notEqual sign => exact absurd sign (by decide)
  | symbol => exact notAssign kind.symm

theorem Kind.fits_sign {kind : Kind} (fixed : kind.text ≠ "") :
    kind.sign.token.Fits (· = kind) :=
  ⟨kind.whole_text fixed, rfl⟩

/-- A parenthesis, a brace, a comma or a semicolon. -/
theorem Spells.mark {kind : Kind} (h : Spells text tokens) (mark : kind.text = String.singleton c)
    (plain : isLetter c = false ∧ c.isDigit = false ∧ c ≠ '=' ∧ c ≠ '!') :
    Spells (c :: text) (kind.sign.token :: tokens) := by
  have fixed : kind.text ≠ "" := by rw [mark]; simp
  have literal : kind.sign.token.literal.toList = [c] := by
    show kind.text.toList = [c]
    rw [mark, String.toList_singleton]
  refine h.sign (Kind.fits_sign fixed).whole literal ⟨plain.1, plain.2.1⟩ fun sign => ?_
  rcases sign with rfl | rfl
  · exact absurd rfl plain.2.2.1
  · exact absurd rfl plain.2.2.2

end

theorem spells_leftParen {text : List Char} {tokens : List Token} (h : Spells text tokens) :
    Spells ('(' :: text) (Kind.leftParen.sign.token :: tokens) :=
  h.mark rfl (by decide)

theorem spells_rightParen {text : List Char} {tokens : List Token} (h : Spells text tokens) :
    Spells (')' :: text) (Kind.rightParen.sign.token :: tokens) :=
  h.mark rfl (by decide)

theorem spells_leftBrace {text : List Char} {tokens : List Token} (h : Spells text tokens) :
    Spells ('{' :: text) (Kind.leftBrace.sign.token :: tokens) :=
  h.mark rfl (by decide)

theorem spells_rightBrace : Spells ['}'] [Kind.rightBrace.sign.token] :=
  spells_nil.mark rfl (by decide)

theorem spells_comma {text : List Char} {tokens : List Token} (h : Spells text tokens) :
    Spells (',' :: text) (Kind.comma.sign.token :: tokens) :=
  h.mark rfl (by decide)

theorem spells_semicolon : Spells [';'] [Kind.semicolon.sign.token] :=
  spells_nil.mark rfl (by decide)

/-- A token that is made of a keyword or of another sign with a fixed spelling. -/
theorem spells_fixed {kind : Kind} (fixed : kind.text ≠ "") :
    Spells kind.text.toList [kind.sign.token] :=
  spells_token (Kind.fits_sign fixed).whole

/-- A text in parentheses. -/
theorem Spells.group {text : List Char} {tokens : List Token} (h : Spells text tokens) :
    Spells ('(' :: (text ++ [')'])) (inParentheses tokens) := by
  apply spells_leftParen
  exact h.append (breaks_rightParen _) (spells_rightParen spells_nil)

/-- A text with a semicolon behind it. -/
theorem Spells.closed {text : List Char} {tokens : List Token} (h : Spells text tokens) :
    Spells (text ++ [';']) (tokens ++ [Kind.semicolon.sign.token]) :=
  h.append (breaks_semicolon _) spells_semicolon

/-! ### Parts of expressions -/

theorem Kind.Starts.ne_equals {kind : Kind} (h : kind.Starts) : kind ≠ .assign ∧ kind ≠ .equal := by
  constructor
  · rintro rfl
    exact h
  · rintro rfl
    exact h

/-- An expression is printed with a token in front that an expression begins with. -/
theorem Expression.printed_eq_cons : ∀ e : Expression,
    ∃ token more, e.printed = token :: more ∧ token.kind.Starts
  | .identifier _ | .integer _ _ | .unary _ _ _ | .binary _ _ _ _ | .conditional _ _ _ _
  | .function _ _ _ => ⟨_, _, rfl, trivial⟩
  | .boolean _ value => ⟨_, _, rfl, by cases value <;> trivial⟩
  | .call _ callee arguments => by
    obtain ⟨token, more, front, starts⟩ := callee.printed_eq_cons
    exact ⟨token, more ++ inParentheses (printedArguments arguments),
      by rw [printed, front, List.cons_append], starts⟩

/-- A token that is made of a name. -/
theorem Identifier.Legible.spells {name : Identifier} (h : name.Legible) :
    Spells name.name.toList [name.printed] := by
  have whole : name.printed.lexeme.Whole := Lexeme.Spelled.whole h
  exact spells_token whole

/-- An operator does not run together with its operand. -/
theorem spells_unary {kind : Kind} (unary : kind.IsUnary) {operand : Expression}
    (h : Spells operand.render.toList operand.printed) :
    Spells (kind.text.toList ++ operand.render.toList) (kind.sign.token :: operand.printed) := by
  obtain ⟨token, more, front, starts⟩ := operand.printed_eq_cons
  have apart {rest : List Char} (ends : Breaks rest) :
      (operand.render.toList ++ rest).head? ≠ some '=' := by
    rw [front] at h
    exact h.head_ne starts.ne_equals.1 starts.ne_equals.2 ends
  have whole := (Kind.fits_sign unary.text_ne).whole
  rcases Kind.isUnary_iff.1 unary with rfl | rfl
  · exact h.sign whole rfl (by decide) fun _ rest ends => apart ends
  · exact h.sign whole rfl (by decide) fun _ rest ends => apart ends

theorem spells_parameters : ∀ parameters : List Identifier,
    (∀ parameter ∈ parameters, parameter.Legible) →
    Spells (renderParameters parameters).toList (printedParameters parameters)
  | [], _ => spells_nil
  | [parameter], h => (h parameter List.mem_cons_self).spells
  | parameter :: next :: parameters, h => by
    obtain ⟨first, others⟩ := List.forall_mem_cons.1 h
    have text : (renderParameters (parameter :: next :: parameters)).toList =
        parameter.name.toList ++ ',' :: ' ' :: (renderParameters (next :: parameters)).toList := by
      simp [renderParameters]
    rw [text]
    apply first.spells.append (breaks_comma _)
    exact spells_comma (spells_parameters (next :: parameters) others).space

/-- Whether or not the condition has parentheses of its own, the text has some. -/
theorem spells_condition {condition : Expression}
    (h : Spells condition.render.toList condition.printed) :
    Spells (if condition.isParenthesized then condition.render
        else "(" ++ condition.render ++ ")").toList
      (inCondition condition.printed condition) := by
  rw [inCondition_eq]
  split
  · exact h
  · have text : ("(" ++ condition.render ++ ")").toList =
        '(' :: (condition.render.toList ++ [')']) := by
      simp
    rw [text]
    exact h.group

/-! ### By recursion on the tree -/

mutual

theorem Expression.spells_render : ∀ e : Expression, e.Legible →
    Spells e.render.toList e.printed
  | .identifier _, h => Identifier.Legible.spells h
  | .integer token _, h => by
    have whole : (Token.lexeme ⟨.integer, token.literal, .start⟩).Whole := Lexeme.Spelled.whole h
    exact spells_token whole
  | .boolean _ value, _ => by
    have fixed (kind : Kind) (h : kind.text ≠ "") := spells_fixed h
    cases value with
    | false => exact fixed .falseWord (by decide)
    | true => exact fixed .trueWord (by decide)
  | .unary token _ operand, h => by
    obtain ⟨⟨kind, unary, rfl⟩, inside⟩ := h
    have inner := operand.spells_render inside
    have text : (Expression.unary token kind.text operand).render.toList =
        '(' :: (kind.text.toList ++ operand.render.toList ++ [')']) := by
      simp [Expression.render]
    rw [text, Expression.printed, operatorToken_text unary.text_ne]
    exact (spells_unary unary inner).group
  | .binary token left _ right, h => by
    obtain ⟨⟨kind, binary, rfl⟩, before, behind⟩ := h
    have first := left.spells_render before
    have second := right.spells_render behind
    have text : (Expression.binary token left kind.text right).render.toList =
        '(' :: (left.render.toList ++ ' ' :: (kind.text.toList ++ ' ' :: right.render.toList) ++
          [')']) := by
      simp [Expression.render]
    rw [text, Expression.printed, operatorToken_text binary.text_ne]
    apply Spells.group
    apply first.spaced
    exact (spells_fixed binary.text_ne).spaced second
  | .conditional token condition consequence alternative, h => by
    obtain ⟨asked, chosen, other⟩ := h
    have first := spells_condition (condition.spells_render asked)
    have second := consequence.spells_render chosen
    obtain ⟨third, breaks⟩ := spells_renderAlternative alternative other
    have text : (Expression.conditional token condition consequence alternative).render.toList =
        Kind.ifWord.text.toList ++ ' ' :: ((if condition.isParenthesized then condition.render
            else "(" ++ condition.render ++ ")").toList ++
          ' ' :: (consequence.render.toList ++ (renderAlternative alternative).toList)) := by
      simp [Expression.render, Kind.text]
    rw [text]
    apply (spells_fixed (by decide)).spaced
    apply first.spaced
    exact second.append breaks third
  | .function token parameters body, h => by
    obtain ⟨word, names, inside⟩ := h
    have first := spells_parameters parameters names
    have second := body.spells_render inside
    have text : (Expression.function token parameters body).render.toList =
        Kind.functionWord.text.toList ++ ('(' :: ((renderParameters parameters).toList ++ [')']) ++
          ' ' :: body.render.toList) := by
      simp [Expression.render, word, Kind.text]
    rw [text]
    apply (spells_fixed (by decide)).append (breaks_leftParen _)
    exact first.group.spaced second
  | .call token callee arguments, h => by
    have first := callee.spells_render h.1
    have second := spells_renderArguments arguments h.2
    have text : (Expression.call token callee arguments).render.toList =
        callee.render.toList ++ '(' :: ((renderArguments arguments).toList ++ [')']) := by
      simp [Expression.render]
    rw [text]
    exact first.append (breaks_leftParen _) second.group

theorem Block.spells_render : ∀ b : Block, b.Legible → Spells b.render.toList b.printed
  | ⟨token, []⟩, _ => by
    have text : (Block.render ⟨token, []⟩).toList = ['{', ' ', '}'] := by simp [Block.render]
    rw [text]
    exact spells_leftBrace spells_rightBrace.space
  | ⟨token, statement :: statements⟩, h => by
    have inner := spells_renderStatements (statement :: statements) h
    have text : (Block.render ⟨token, statement :: statements⟩).toList =
        '{' :: ' ' :: ((renderStatements (statement :: statements)).toList ++ [' ', '}']) := by
      simp [Block.render]
    rw [text]
    apply spells_leftBrace
    apply Spells.space
    exact inner.spaced spells_rightBrace

theorem Statement.spells_render : ∀ w : Statement, w.Legible → Spells w.render.toList w.printed
  | .binding token name value, h => by
    obtain ⟨word, bound, inside⟩ := h
    have inner := value.spells_render inside
    have text : (Statement.binding token name value).render.toList =
        Kind.letWord.text.toList ++ ' ' :: (name.name.toList ++
          ' ' :: (Kind.assign.text.toList ++ ' ' :: (value.render.toList ++ [';']))) := by
      simp [Statement.render, word, Kind.text]
    rw [text]
    apply (spells_fixed (by decide)).spaced
    apply bound.spells.spaced
    exact (spells_fixed (by decide)).spaced inner.closed
  | .result token value, h => by
    obtain ⟨word, inside⟩ := h
    have inner := value.spells_render inside
    have text : (Statement.result token value).render.toList =
        Kind.returnWord.text.toList ++ ' ' :: (value.render.toList ++ [';']) := by
      simp [Statement.render, word, Kind.text]
    rw [text]
    exact (spells_fixed (by decide)).spaced inner.closed
  | .expression _ value, h => value.spells_render h
  | .block body, h => body.spells_render h

theorem spells_renderAlternative : ∀ alternative : Option Block, LegibleAlternative alternative →
    Spells (renderAlternative alternative).toList (printedAlternative alternative) ∧
      Breaks (renderAlternative alternative).toList
  | none, _ => ⟨spells_nil, breaks_nil⟩
  | some block, h => by
    have inner := block.spells_render h
    have text : (renderAlternative (some block)).toList =
        ' ' :: (Kind.elseWord.text.toList ++ ' ' :: block.render.toList) := by
      simp [renderAlternative, Kind.text]
    rw [text]
    refine ⟨?_, breaks_space _⟩
    apply Spells.space
    exact (spells_fixed (by decide)).spaced inner

theorem spells_renderArguments : ∀ arguments : List Expression, LegibleArguments arguments →
    Spells (renderArguments arguments).toList (printedArguments arguments)
  | [], _ => spells_nil
  | [argument], h => argument.spells_render h.1
  | argument :: next :: arguments, h => by
    have first := argument.spells_render h.1
    have others := spells_renderArguments (next :: arguments) h.2
    have text : (renderArguments (argument :: next :: arguments)).toList =
        argument.render.toList ++ ',' :: ' ' :: (renderArguments (next :: arguments)).toList := by
      simp [renderArguments]
    rw [text]
    apply first.append (breaks_comma _)
    exact spells_comma others.space

theorem spells_renderStatements : ∀ statements : List Statement, LegibleStatements statements →
    Spells (renderStatements statements).toList (printedStatements statements)
  | [], _ => spells_nil
  | [statement], h => statement.spells_render h.1
  | statement :: next :: statements, h => by
    have first := statement.spells_render h.1
    have others := spells_renderStatements (next :: statements) h.2
    -- the semicolon between two statements belongs to the first one
    have text : (renderStatements (statement :: next :: statements)).toList =
        (statement.render.toList ++ if statement.isExpression then [';'] else []) ++
          ' ' :: (renderStatements (next :: statements)).toList := by
      cases own : statement.isExpression <;> simp [renderStatements, own]
    have separated : Spells
        (statement.render.toList ++ if statement.isExpression then [';'] else [])
        (statement.printed ++ statement.separator) := by
      rw [statement.separator_eq]
      split
      · exact first.closed
      · exact first.append breaks_nil spells_nil
    rw [text]
    exact separated.spaced others

end

/-! ### Whole texts -/

/-- What is spelled by a text is read from it. -/
theorem Spells.all_eq {text : List Char} {tokens : List Token} (h : Spells text tokens) :
    all text = tokens.map Token.lexeme := by
  have read := h breaks_nil
  rwa [List.append_nil, all_nil, List.append_nil] at read

/-- The lexer reads the canonical text of a program as the tokens of its document. -/
theorem Program.all_render {number : String → Int → Prop} (p : Program) (h : p.Coherent number) :
    all p.render.toList = (p.document h).tokens.map Token.lexeme := by
  rw [p.map_lexeme_document h]
  exact (spells_renderStatements p.statements h.legible).all_eq

/-- The tokens of the text are these and the end of input, but for their places. -/
def Lexer.ReadsAs (text : String) (tokens : List Token) : Prop :=
  (ofString text).tokenize.map Token.lexeme = tokens.map Token.lexeme ++ [⟨.endOfInput, []⟩]

theorem Spells.readsAs {text : String} {tokens : List Token} (h : Spells text.toList tokens) :
    Lexer.ReadsAs text tokens := by
  have read : (Lexer.ofString text).tokens.map Token.lexeme = tokens.map Token.lexeme :=
    (Lexer.map_lexeme_tokens _).trans h.all_eq
  rw [Lexer.ReadsAs, Lexer.tokenize, List.map_append, read]
  rfl

/-- Whatever a text is, what can be read of it is printed with the tokens that it should have. -/
theorem Parsed.readsAs_render (source : String) :
    Lexer.ReadsAs (ofString source).program.render (ofString source).program.printed := by
  have legible := (coherent_ofString source).legible
  exact (spells_renderStatements (ofString source).program.statements legible).readsAs

/-- **The printer neither joins tokens nor splits them.**  Let the names in a tree be runs of letters
and underscores that are no keywords, the texts of its integer literals runs of digits, its operators
those of the language, and the words that begin its functions, bindings and results the keywords for
them.  Then the lexer reads the canonical text as the tokens that the tree is printed with, kind by
kind and literal by literal, and behind them the end of input.  This is so for programs, statements,
blocks and expressions, whether or not they come of parsing, and there is no limit to the depth.  A
block that stands by itself does no harm. -/
theorem Lexer.tokenize_render :
    (∀ p : Program, p.Legible → ReadsAs p.render p.printed) ∧
      (∀ w : Statement, w.Legible → ReadsAs w.render w.printed) ∧
      (∀ b : Block, b.Legible → ReadsAs b.render b.printed) ∧
      ∀ e : Expression, e.Legible → ReadsAs e.render e.printed := by
  refine ⟨fun p h => ?_, fun w h => ?_, fun b h => ?_, fun e h => ?_⟩
  · exact (spells_renderStatements p.statements h).readsAs
  · exact (w.spells_render h).readsAs
  · exact (b.spells_render h).readsAs
  · exact (e.spells_render h).readsAs

/-- A program with most of the neighbours that stand in a text without a space between them.  One of
its blocks stands by itself. -/
def crowdedProgram : Program :=
  let name (text : String) : Identifier := ⟨⟨.identifier, text, .start⟩, text⟩
  let number : Expression := .integer ⟨.integer, "01", .start⟩ 1
  let negative : Expression := .unary Kind.minus.sign.token "-" number
  let block (statements : List Statement) : Block := ⟨Kind.leftBrace.sign.token, statements⟩
  let bare (value : Expression) : Statement := .expression value.token value
  let called : Expression :=
    .call Kind.leftParen.sign.token (.identifier (name "_f"))
      [number, .boolean Kind.trueWord.sign.token true]
  ⟨[.binding Kind.letWord.sign.token (name "_f")
      (.function Kind.functionWord.sign.token [name "x", name "y"]
        (block [
          bare (.binary Kind.equal.sign.token (.unary Kind.bang.sign.token "!" negative) "=="
            (.identifier (name "x"))),
          .result Kind.returnWord.sign.token number])),
    bare (.conditional Kind.ifWord.sign.token (.identifier (name "x")) (block [])
      (some (block [bare (.call Kind.leftParen.sign.token called [])]))),
    .block (block [bare (.conditional Kind.ifWord.sign.token negative (block []) none)]),
    bare (.identifier (name "y"))]⟩

/-- Every token of it is read, though many have no space between them. -/
theorem Lexer.tokenize_render_crowdedProgram :
    crowdedProgram.Legible ∧
      crowdedProgram.render =
        "let _f = fn(x, y) \x7b ((!(-01)) == x); return 01; \x7d; if (x) \x7b \x7d else \x7b " ++
          "_f(01, true)() \x7d; \x7b if (-01) \x7b \x7d \x7d y" ∧
      " ".intercalate (crowdedProgram.printed.map Token.literal) =
        "let _f = fn ( x , y ) \x7b ( ( ! ( - 01 ) ) == x ) ; return 01 ; \x7d ; if ( x ) \x7b " ++
          "\x7d else \x7b _f ( 01 , true ) ( ) \x7d ; \x7b if ( - 01 ) \x7b \x7d \x7d y" ∧
      ReadsAs crowdedProgram.render crowdedProgram.printed := by
  have name (text : String) (whole : Whole ⟨.identifier, text.toList⟩) := whole.spelled
  have f := name "_f" ⟨_, _, rfl, rfl, rfl⟩
  have x := name "x" ⟨_, _, rfl, rfl, rfl⟩
  have y := name "y" ⟨_, _, rfl, rfl, rfl⟩
  have number : Spelled ⟨.integer, "01".toList⟩ := Whole.spelled ⟨_, _, rfl, rfl, rfl⟩
  have minus : ∃ kind : Kind, kind.IsUnary ∧ "-" = kind.text := ⟨.minus, trivial, rfl⟩
  have bang : ∃ kind : Kind, kind.IsUnary ∧ "!" = kind.text := ⟨.bang, trivial, rfl⟩
  have equal : ∃ kind : Kind, kind.IsBinary ∧ "==" = kind.text := ⟨.equal, trivial, rfl⟩
  have legible : crowdedProgram.Legible := by
    refine ⟨⟨rfl, f, rfl, ?_, ⟨equal, ⟨bang, minus, number⟩, x⟩, ⟨rfl, number⟩, trivial⟩,
      ⟨x, trivial, ⟨⟨f, number, trivial, trivial⟩, trivial⟩, trivial⟩,
      ⟨⟨⟨minus, number⟩, trivial, trivial⟩, trivial⟩, y, trivial⟩
    exact List.forall_mem_cons.2 ⟨x, List.forall_mem_singleton.2 y⟩
  exact ⟨legible, by decide +kernel, by decide +kernel, tokenize_render.1 crowdedProgram legible⟩

end MonkeyLang
