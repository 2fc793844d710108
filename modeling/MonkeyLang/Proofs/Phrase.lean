import MonkeyLang.Numeral
import MonkeyLang.Token.Precedence
import MonkeyLang.Tree.Basic

/-!
# Programs as they are written

The concrete syntax of the language.  A `Phrase` is an expression with every token that it is
written with, the parentheses that only group included; a `Clause` is a statement with or without
its semicolon, a `Passage` a block between its braces, and a `Document` a whole program.  The types
of the tokens make all of them grammatical:

    clause  = "let" identifier "=" phrase ";"? | "return" phrase ";"? | phrase ";"?
    passage = "{" clause* "}"
    phrase  = identifier | integer | "true" | "false" | "(" phrase ")"
            | ("!" | "-") phrase | phrase operator phrase
            | "if" "(" phrase ")" passage ("else" passage)?
            | "fn" "(" (identifier ("," identifier)*)? ")" passage
            | phrase "(" (phrase ("," phrase)*)? ")"

`tokens` is the text of each of them, `tree` the abstract tree that remains when the grouping
parentheses, the separators and the semicolons are forgotten, and `nesting` the number of
expressions that are open at once when it is read.  `Proper` says what the grammar leaves open:
how tightly ungrouped operands bind, the range of integers, and where a semicolon may be left out.

A passage may also be a gap, of which only the tokens between the braces are known.  Which gaps may
occur is a parameter; with `noGaps` there are none.

What is shown by induction on all of these types at once is `Hereditary`.
-/

namespace MonkeyLang

/-! ### Tokens of a known kind -/

/-- A token of one of the kinds that are allowed at its place. -/
structure Lexed (allowed : Kind → Prop) where
  /-- The token. -/
  token : Token
  /-- It is of an allowed kind. -/
  kind : allowed token.kind

/-- A token of one certain kind. -/
abbrev Sign (kind : Kind) := Lexed (· = kind)

/-- Its tokens: just the one. -/
def Lexed.tokens {allowed : Kind → Prop} (sign : Lexed allowed) : List Token := [sign.token]

theorem Sign.kind_eq {kind : Kind} (sign : Sign kind) : sign.token.kind = kind := sign.kind

namespace Kind

/-- The two truth values. -/
def IsTruth : Kind → Prop
  | trueWord | falseWord => True
  | _ => False

/-- The operators before an operand. -/
def IsUnary : Kind → Prop
  | bang | minus => True
  | _ => False

/-- The operators between two operands. -/
def IsBinary : Kind → Prop
  | equal | notEqual | less | greater | plus | minus | asterisk | slash => True
  | _ => False

end Kind

/-! ### Concrete syntax -/

/-- Which blocks may be left open: the opening brace, the tokens inside, the closing brace. -/
abbrev GapRule := Token → List Token → Token → Prop

/-- Nothing may be left open. -/
def noGaps : GapRule := fun _ _ _ => False

/-- One or more items with commas between them. -/
inductive Separated (α : Type) where
  /-- The last item. -/
  | last (item : α)
  /-- An item with more behind it. -/
  | more (item : α) (comma : Sign .comma) (later : Separated α)

/-- What stands before the value of a statement. -/
inductive Lead where
  /-- `let name =` -/
  | binding (word : Sign .letWord) (name : Sign .identifier) (assign : Sign .assign)
  /-- `return` -/
  | result (word : Sign .returnWord)
  /-- Nothing. -/
  | bare

mutual

/-- An expression as it is written. -/
inductive Phrase (gaps : GapRule) where
  | name (word : Sign .identifier)
  | numeral (digits : Sign .integer)
  | truth (word : Lexed Kind.IsTruth)
  | group (opening : Sign .leftParen) (inner : Phrase gaps) (closing : Sign .rightParen)
  | unary (operator : Lexed Kind.IsUnary) (operand : Phrase gaps)
  | binary (left : Phrase gaps) (operator : Lexed Kind.IsBinary) (right : Phrase gaps)
  | conditional (word : Sign .ifWord) (opening : Sign .leftParen) (condition : Phrase gaps)
      (closing : Sign .rightParen) (consequence : Passage gaps)
      (alternative : Option (Sign .elseWord × Passage gaps))
  | function (word : Sign .functionWord) (opening : Sign .leftParen)
      (parameters : Option (Separated (Sign .identifier))) (closing : Sign .rightParen)
      (body : Passage gaps)
  | call (callee : Phrase gaps) (opening : Sign .leftParen)
      (arguments : Option (Separated (Phrase gaps))) (closing : Sign .rightParen)

/-- A block as it is written. -/
inductive Passage (gaps : GapRule) where
  | block (opening : Sign .leftBrace) (clauses : List (Clause gaps)) (closing : Sign .rightBrace)
  /-- A block of which only the tokens are known. -/
  | gap (opening : Sign .leftBrace) (content : List Token) (closing : Sign .rightBrace)
      (permitted : gaps opening.token content closing.token)

/-- A statement as it is written. -/
inductive Clause (gaps : GapRule) where
  | mk (lead : Lead) (value : Phrase gaps) (semicolon : Option (Sign .semicolon))

end

/-- A program as it is written. -/
structure Document (gaps : GapRule) where
  /-- The statements at top level. -/
  clauses : List (Clause gaps)

variable {gaps : GapRule}

/-! ### The text -/

/-- The tokens of a list with commas. -/
def Separated.tokens {α : Type} (item : α → List Token) : Separated α → List Token
  | last first => item first
  | more first comma later => item first ++ comma.token :: later.tokens item

/-- The tokens of the parameters of a function. -/
def parameterTokens : Option (Separated (Sign .identifier)) → List Token
  | none => []
  | some parameters => parameters.tokens Lexed.tokens

/-- The tokens before the value of a statement. -/
def Lead.tokens : Lead → List Token
  | binding word name assign => [word.token, name.token, assign.token]
  | result word => [word.token]
  | bare => []

mutual

/-- The tokens of an expression. -/
def Phrase.tokens : Phrase gaps → List Token
  | .name word => [word.token]
  | .numeral digits => [digits.token]
  | .truth word => [word.token]
  | .group opening inner closing => opening.token :: (inner.tokens ++ [closing.token])
  | .unary operator operand => operator.token :: operand.tokens
  | .binary left operator right => left.tokens ++ operator.token :: right.tokens
  | .conditional word opening condition closing consequence alternative =>
    word.token :: opening.token ::
      (condition.tokens ++ closing.token :: (consequence.tokens ++ alternativeTokens alternative))
  | .function word opening parameters closing body =>
    word.token :: opening.token ::
      (parameterTokens parameters ++ closing.token :: body.tokens)
  | .call callee opening arguments closing =>
    callee.tokens ++ opening.token :: (argumentTokens arguments ++ [closing.token])

/-- The tokens of a block. -/
def Passage.tokens : Passage gaps → List Token
  | .block opening clauses closing => opening.token :: (clauseTokens clauses ++ [closing.token])
  | .gap opening content closing _ => opening.token :: (content ++ [closing.token])

/-- The tokens of a statement. -/
def Clause.tokens : Clause gaps → List Token
  | ⟨lead, value, semicolon⟩ =>
    lead.tokens ++ (value.tokens ++ (semicolon.map Lexed.token).toList)

/-- The tokens of the second block of a choice. -/
def alternativeTokens : Option (Sign .elseWord × Passage gaps) → List Token
  | none => []
  | some (word, body) => word.token :: body.tokens

/-- The tokens of the arguments of a call. -/
def argumentTokens : Option (Separated (Phrase gaps)) → List Token
  | none => []
  | some arguments => separatedTokens arguments

/-- The tokens of a list of expressions. -/
def separatedTokens : Separated (Phrase gaps) → List Token
  | .last first => first.tokens
  | .more first comma later => first.tokens ++ comma.token :: separatedTokens later

/-- The tokens of a list of statements. -/
def clauseTokens : List (Clause gaps) → List Token
  | [] => []
  | first :: later => first.tokens ++ clauseTokens later

end

/-- The tokens of a program. -/
def Document.tokens (document : Document gaps) : List Token := clauseTokens document.clauses

/-! ### The abstract tree -/

/-- A name as it stands in a tree. -/
def Sign.identifier (name : Sign .identifier) : Identifier := ⟨name.token, name.token.literal⟩

/-- The items of a list with commas. -/
def Separated.items {α : Type} : Separated α → List α
  | last first => [first]
  | more first _ later => first :: later.items

/-- The names of the parameters of a function. -/
def parameterNames : Option (Separated (Sign .identifier)) → List Identifier
  | none => []
  | some parameters => parameters.items.map Sign.identifier

/-- The first token of an expression. -/
def Phrase.first : Phrase gaps → Token
  | .name word => word.token
  | .numeral digits => digits.token
  | .truth word => word.token
  | .group opening _ _ => opening.token
  | .unary operator _ => operator.token
  | .binary left _ _ => left.first
  | .conditional word _ _ _ _ _ => word.token
  | .function word _ _ _ _ => word.token
  | .call callee _ _ _ => callee.first

/-- The statement that a value makes with what stands before it.  A bare expression keeps its first
token. -/
def Lead.statement (first : Token) (value : Expression) : Lead → Statement
  | binding word name _ => .binding word.token name.identifier value
  | result word => .result word.token value
  | bare => .expression first value

mutual

/-- An expression without its grouping parentheses. -/
def Phrase.tree : Phrase gaps → Expression
  | .name word => .identifier word.identifier
  | .numeral digits => .integer digits.token (numeralValue digits.token.literal.toList)
  | .truth word => .boolean word.token (decide (word.token.kind = .trueWord))
  | .group _ inner _ => inner.tree
  | .unary operator operand => .unary operator.token operator.token.literal operand.tree
  | .binary left operator right =>
    .binary operator.token left.tree operator.token.literal right.tree
  | .conditional word _ condition _ consequence alternative =>
    .conditional word.token condition.tree consequence.tree (alternativeTree alternative)
  | .function word _ parameters _ body =>
    .function word.token (parameterNames parameters) body.tree
  | .call callee opening arguments _ =>
    .call opening.token callee.tree (argumentTrees arguments)

/-- A block without its semicolons.  Of a gap nothing but the brace is known. -/
def Passage.tree : Passage gaps → Block
  | .block opening clauses _ => ⟨opening.token, clauseTrees clauses⟩
  | .gap opening _ _ _ => ⟨opening.token, []⟩

/-- A statement without its semicolon. -/
def Clause.tree : Clause gaps → Statement
  | ⟨lead, value, _⟩ => lead.statement value.first value.tree

/-- The second block of a choice. -/
def alternativeTree : Option (Sign .elseWord × Passage gaps) → Option Block
  | none => none
  | some (_, body) => some body.tree

/-- The arguments of a call. -/
def argumentTrees : Option (Separated (Phrase gaps)) → List Expression
  | none => []
  | some arguments => separatedTrees arguments

/-- A list of expressions without its commas. -/
def separatedTrees : Separated (Phrase gaps) → List Expression
  | .last first => [first.tree]
  | .more first _ later => first.tree :: separatedTrees later

/-- A list of statements. -/
def clauseTrees : List (Clause gaps) → List Statement
  | [] => []
  | first :: later => first.tree :: clauseTrees later

end

/-- A program without its grouping parentheses, separators and semicolons. -/
def Document.tree (document : Document gaps) : Program := ⟨clauseTrees document.clauses⟩

/-! ### Nesting -/

mutual

/-- How many expressions are open at once when an expression is read.  The left operand of an
operator is read before the operator opens another expression, and so is a callee. -/
def Phrase.nesting : Phrase gaps → Nat
  | .name _ | .numeral _ | .truth _ => 1
  | .group _ inner _ => 1 + inner.nesting
  | .unary _ operand => 1 + operand.nesting
  | .binary left _ right => max left.nesting (1 + right.nesting)
  | .conditional _ _ condition _ consequence alternative =>
    1 + max condition.nesting (max consequence.nesting (alternativeNesting alternative))
  | .function _ _ _ _ body => 1 + body.nesting
  | .call callee _ arguments _ => max callee.nesting (1 + argumentNesting arguments)

/-- The largest nesting of a value in a block, zero if there is none. -/
def Passage.nesting : Passage gaps → Nat
  | .block _ clauses _ => clauseNesting clauses
  | .gap .. => 0

/-- The nesting of the value of a statement. -/
def Clause.nesting : Clause gaps → Nat
  | ⟨_, value, _⟩ => value.nesting

/-- The largest nesting of a value in the second block of a choice. -/
def alternativeNesting : Option (Sign .elseWord × Passage gaps) → Nat
  | none => 0
  | some (_, body) => body.nesting

/-- The largest nesting of an argument. -/
def argumentNesting : Option (Separated (Phrase gaps)) → Nat
  | none => 0
  | some arguments => separatedNesting arguments

/-- The largest nesting in a list of expressions. -/
def separatedNesting : Separated (Phrase gaps) → Nat
  | .last first => first.nesting
  | .more first _ later => max first.nesting (separatedNesting later)

/-- The largest nesting of a value in a list of statements. -/
def clauseNesting : List (Clause gaps) → Nat
  | [] => 0
  | first :: later => max first.nesting (clauseNesting later)

end

/-- The largest nesting of a value at top level. -/
def Document.nesting (document : Document gaps) : Nat := clauseNesting document.clauses

/-! ### What the grammar leaves open -/

/-- How tightly an expression holds together.  An operation holds as its operator does, and
everything else as tightly as can be. -/
def Phrase.strength : Phrase gaps → Precedence
  | .unary _ _ => .unary
  | .binary _ operator _ => .ofKind operator.token.kind
  | _ => .call

/-- The operators that an expression is built up with from its first operand, the outermost first:
those that are reached over left operands and callees without entering parentheses. -/
def Phrase.spine : Phrase gaps → List Token
  | .binary left operator _ => operator.token :: left.spine
  | .call callee opening _ _ => opening.token :: callee.spine
  | _ => []

/-- Whether a statement without a semicolon may stand before the given tokens: the next one must not
be taken for an operator. -/
def EndsBefore (tokens : List Token) : Prop :=
  ∀ token, tokens.head? = some token → token.kind ≠ .leftParen ∧ token.kind ≠ .minus

/-- The semicolon of a statement, if it has one. -/
def Clause.semicolon : Clause gaps → Option (Sign .semicolon)
  | ⟨_, _, semicolon⟩ => semicolon

mutual

/-- An expression of which

* every ungrouped operand holds together at least as tightly as the operator beside it, a right
  operand more tightly (so operators of equal strength group to the left);
* every integer is in range;
* every semicolon that is left out may be. -/
def Phrase.Proper : Phrase gaps → Prop
  | .name _ | .truth _ => True
  | .numeral digits => numeralValue digits.token.literal.toList ≤ maxInteger
  | .group _ inner _ => inner.Proper
  | .unary _ operand => .unary ≤ operand.strength ∧ operand.Proper
  | .binary left operator right =>
    .ofKind operator.token.kind ≤ left.strength ∧ .ofKind operator.token.kind < right.strength ∧
      left.Proper ∧ right.Proper
  | .conditional _ _ condition _ consequence alternative =>
    condition.Proper ∧ consequence.Proper ∧ ProperAlternative alternative
  | .function _ _ _ _ body => body.Proper
  | .call callee _ arguments _ =>
    .call ≤ callee.strength ∧ callee.Proper ∧ ProperArguments arguments

/-- A block of proper statements. -/
def Passage.Proper : Passage gaps → Prop
  | .block _ clauses _ => ProperClauses clauses
  | .gap .. => True

/-- A statement with a proper value. -/
def Clause.Proper : Clause gaps → Prop
  | ⟨_, value, _⟩ => value.Proper

/-- A second block of proper statements, if there is one. -/
def ProperAlternative : Option (Sign .elseWord × Passage gaps) → Prop
  | none => True
  | some (_, body) => body.Proper

/-- Arguments that are proper, if there are any. -/
def ProperArguments : Option (Separated (Phrase gaps)) → Prop
  | none => True
  | some arguments => ProperSeparated arguments

/-- A list of proper expressions. -/
def ProperSeparated : Separated (Phrase gaps) → Prop
  | .last first => first.Proper
  | .more first _ later => first.Proper ∧ ProperSeparated later

/-- A list of proper statements, in which a semicolon is left out only if the next statement begins
neither with a parenthesis nor with a minus sign. -/
def ProperClauses : List (Clause gaps) → Prop
  | [] => True
  | first :: later =>
    first.Proper ∧ (first.semicolon = none → EndsBefore (clauseTokens later)) ∧ ProperClauses later

end

/-- A program of proper statements. -/
def Document.Proper (document : Document gaps) : Prop := ProperClauses document.clauses

/-! ### First lemmas -/

namespace Kind

theorem isTruth_iff {kind : Kind} : kind.IsTruth ↔ kind = trueWord ∨ kind = falseWord := by
  cases kind <;> simp [IsTruth]

theorem isUnary_iff {kind : Kind} : kind.IsUnary ↔ kind = bang ∨ kind = minus := by
  cases kind <;> simp [IsUnary]

/-- The operators between two operands are the tokens that bind, parentheses apart. -/
theorem isBinary_iff {kind : Kind} :
    kind.IsBinary ↔ .lowest < Precedence.ofKind kind ∧ kind ≠ .leftParen := by
  cases kind <;> simp [IsBinary, Precedence.ofKind, Precedence.lt_iff_rank, Precedence.rank]

/-- Every operator between two operands is weaker than those before an operand. -/
theorem IsBinary.lt_unary {kind : Kind} (h : kind.IsBinary) : Precedence.ofKind kind < .unary := by
  cases kind <;> simp_all [IsBinary, Precedence.ofKind, Precedence.lt_iff_rank, Precedence.rank]

end Kind

theorem Precedence.le_call (p : Precedence) : p ≤ .call := by
  cases p <;> decide

theorem Phrase.tokens_eq_cons : ∀ phrase : Phrase gaps,
    ∃ more, phrase.tokens = phrase.first :: more
  | .name _ | .numeral _ | .truth _ | .group .. | .unary .. | .conditional .. | .function .. =>
    ⟨_, rfl⟩
  | .binary left operator right => by
    obtain ⟨more, h⟩ := left.tokens_eq_cons
    exact ⟨more ++ operator.token :: right.tokens, by simp [tokens, first, h]⟩
  | .call callee opening arguments closing => by
    obtain ⟨more, h⟩ := callee.tokens_eq_cons
    exact ⟨more ++ opening.token :: (argumentTokens arguments ++ [closing.token]),
      by simp [tokens, first, h]⟩

/-- Parentheses that only group leave no trace in the tree. -/
theorem Phrase.tree_group (opening : Sign .leftParen) (inner : Phrase gaps)
    (closing : Sign .rightParen) : (Phrase.group opening inner closing).tree = inner.tree := by
  rw [tree]

/-! Lists of expressions, item by item. -/

theorem separatedTokens_eq : ∀ arguments : Separated (Phrase gaps),
    separatedTokens arguments = arguments.tokens Phrase.tokens
  | .last _ => by simp [separatedTokens, Separated.tokens]
  | .more _ _ later => by simp [separatedTokens, Separated.tokens, separatedTokens_eq later]

theorem separatedTrees_eq : ∀ arguments : Separated (Phrase gaps),
    separatedTrees arguments = arguments.items.map Phrase.tree
  | .last _ => by simp [separatedTrees, Separated.items]
  | .more _ _ later => by simp [separatedTrees, Separated.items, separatedTrees_eq later]

theorem separatedNesting_le_iff {n : Nat} : ∀ arguments : Separated (Phrase gaps),
    separatedNesting arguments ≤ n ↔ ∀ argument ∈ arguments.items, argument.nesting ≤ n
  | .last _ => by simp [separatedNesting, Separated.items]
  | .more _ _ later => by
    rw [separatedNesting, Separated.items, Nat.max_le, separatedNesting_le_iff later,
      List.forall_mem_cons]

theorem properSeparated_iff : ∀ arguments : Separated (Phrase gaps),
    ProperSeparated arguments ↔ ∀ argument ∈ arguments.items, argument.Proper
  | .last _ => by simp [ProperSeparated, Separated.items]
  | .more _ _ later => by simp [ProperSeparated, Separated.items, properSeparated_iff later]

theorem clauseNesting_le_iff {n : Nat} : ∀ clauses : List (Clause gaps),
    clauseNesting clauses ≤ n ↔ ∀ clause ∈ clauses, clause.nesting ≤ n
  | [] => by simp [clauseNesting]
  | first :: later => by
    rw [clauseNesting, Nat.max_le, clauseNesting_le_iff later, List.forall_mem_cons]

theorem ProperArguments.proper {arguments : Option (Separated (Phrase gaps))}
    (h : ProperArguments arguments) : ∀ list, arguments = some list →
      ∀ argument ∈ list.items, argument.Proper := by
  rintro list rfl
  exact (properSeparated_iff list).1 h

theorem ProperClauses.proper {clauses : List (Clause gaps)} (h : ProperClauses clauses) :
    ∀ clause ∈ clauses, clause.Proper := by
  induction clauses with
  | nil => simp
  | cons first later ih => exact List.forall_mem_cons.2 ⟨h.1, ih h.2.2⟩

/-! ### Induction on what is written -/

/-- Three properties, of phrases, passages and clauses, that hold of the whole if they hold of the
parts. -/
structure Hereditary (onPhrase : Phrase gaps → Prop) (onPassage : Passage gaps → Prop)
    (onClause : Clause gaps → Prop) : Prop where
  name (word : Sign .identifier) : onPhrase (.name word)
  numeral (digits : Sign .integer) : onPhrase (.numeral digits)
  truth (word : Lexed Kind.IsTruth) : onPhrase (.truth word)
  group {inner : Phrase gaps} (opening : Sign .leftParen) (closing : Sign .rightParen) :
    onPhrase inner → onPhrase (.group opening inner closing)
  unary {operand : Phrase gaps} (operator : Lexed Kind.IsUnary) :
    onPhrase operand → onPhrase (.unary operator operand)
  binary {left right : Phrase gaps} (operator : Lexed Kind.IsBinary) :
    onPhrase left → onPhrase right → onPhrase (.binary left operator right)
  conditional {condition : Phrase gaps} {consequence : Passage gaps}
    {alternative : Option (Sign .elseWord × Passage gaps)} (word : Sign .ifWord)
    (opening : Sign .leftParen) (closing : Sign .rightParen) :
    onPhrase condition → onPassage consequence →
    (∀ word body, alternative = some (word, body) → onPassage body) →
      onPhrase (.conditional word opening condition closing consequence alternative)
  function {body : Passage gaps} (word : Sign .functionWord) (opening : Sign .leftParen)
    (parameters : Option (Separated (Sign .identifier))) (closing : Sign .rightParen) :
    onPassage body → onPhrase (.function word opening parameters closing body)
  call {callee : Phrase gaps} {arguments : Option (Separated (Phrase gaps))}
    (opening : Sign .leftParen) (closing : Sign .rightParen) :
    onPhrase callee →
    (∀ list, arguments = some list → ∀ argument ∈ list.items, onPhrase argument) →
      onPhrase (.call callee opening arguments closing)
  block {clauses : List (Clause gaps)} (opening : Sign .leftBrace) (closing : Sign .rightBrace) :
    (∀ clause ∈ clauses, onClause clause) → onPassage (.block opening clauses closing)
  gap (opening : Sign .leftBrace) (content : List Token) (closing : Sign .rightBrace)
    (permitted : gaps opening.token content closing.token) :
    onPassage (.gap opening content closing permitted)
  clause {value : Phrase gaps} (lead : Lead) (semicolon : Option (Sign .semicolon)) :
    onPhrase value → onClause ⟨lead, value, semicolon⟩

section
variable {onPhrase : Phrase gaps → Prop} {onPassage : Passage gaps → Prop}
  {onClause : Clause gaps → Prop}

mutual

theorem Hereditary.phrase (h : Hereditary onPhrase onPassage onClause) :
    ∀ phrase : Phrase gaps, onPhrase phrase
  | .name word => h.name word
  | .numeral digits => h.numeral digits
  | .truth word => h.truth word
  | .group opening inner closing => h.group opening closing (h.phrase inner)
  | .unary operator operand => h.unary operator (h.phrase operand)
  | .binary left operator right => h.binary operator (h.phrase left) (h.phrase right)
  | .conditional word opening condition closing consequence alternative =>
    h.conditional word opening closing (h.phrase condition) (h.passage consequence)
      (h.alternative alternative)
  | .function word opening parameters closing body =>
    h.function word opening parameters closing (h.passage body)
  | .call callee opening arguments closing =>
    h.call opening closing (h.phrase callee) (h.arguments arguments)
termination_by structural phrase => phrase

theorem Hereditary.passage (h : Hereditary onPhrase onPassage onClause) :
    ∀ passage : Passage gaps, onPassage passage
  | .block opening clauses closing => h.block opening closing (h.clauses clauses)
  | .gap opening content closing permitted => h.gap opening content closing permitted
termination_by structural passage => passage

theorem Hereditary.each (h : Hereditary onPhrase onPassage onClause) :
    ∀ clause : Clause gaps, onClause clause
  | ⟨lead, value, semicolon⟩ => h.clause lead semicolon (h.phrase value)
termination_by structural clause => clause

theorem Hereditary.alternative (h : Hereditary onPhrase onPassage onClause) :
    ∀ alternative : Option (Sign .elseWord × Passage gaps),
      ∀ word body, alternative = some (word, body) → onPassage body
  | none, _, _, same => absurd same (by simp)
  | some (_, body), _, _, rfl => h.passage body
termination_by structural alternative => alternative

theorem Hereditary.arguments (h : Hereditary onPhrase onPassage onClause) :
    ∀ arguments : Option (Separated (Phrase gaps)),
      ∀ list, arguments = some list → ∀ argument ∈ list.items, onPhrase argument
  | none, _, same => absurd same (by simp)
  | some list, _, rfl => h.items list
termination_by structural arguments => arguments

theorem Hereditary.items (h : Hereditary onPhrase onPassage onClause) :
    ∀ list : Separated (Phrase gaps), ∀ argument ∈ list.items, onPhrase argument
  | .last phrase, argument, member => by
    have here := h.phrase phrase
    have same : argument = phrase := by simpa [Separated.items] using member
    rwa [same]
  | .more phrase _ later, argument, member => by
    have here := h.phrase phrase
    have others := h.items later
    rcases List.mem_cons.1 member with same | member
    · rwa [same]
    · exact others argument member
termination_by structural list => list

theorem Hereditary.clauses (h : Hereditary onPhrase onPassage onClause) :
    ∀ clauses : List (Clause gaps), ∀ clause ∈ clauses, onClause clause
  | [], _, member => absurd member (by simp)
  | first :: later, clause, member => by
    have here := h.each first
    have others := h.clauses later
    rcases List.mem_cons.1 member with same | member
    · rwa [same]
    · exact others clause member
termination_by structural clauses => clauses

end

end

end MonkeyLang
