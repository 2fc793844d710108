import MonkeyLang.Proofs.Phrase
import MonkeyLang.Proofs.Reading

/-!
# A clean run has read what is written

Whatever is read in a clean run has been written: the tokens between the two positions are those of
a proper phrase, clause or passage, of which the value read is the tree and whose nesting stays
within the levels that were left.

The heart is `fold_sound`, the loop over operators.  Its invariant is that the operand on the left
holds together at least as tightly as the next token binds.  That is why an operator may take all of
it, and it is kept because a right operand is left only at a token that binds no tighter than the
operator before it.
-/

namespace MonkeyLang

variable {gaps : GapRule}

/-! ### Tokens between positions -/

namespace State

variable {s m t : State}

/-- The given tokens are those from the current one of the first position to the current one of the
second. -/
def Spans (s : State) (tokens : List Token) (t : State) : Prop := s.tokens = tokens ++ t.tokens.tail

theorem spans_current (h : s.current.kind ≠ .endOfInput) : Spans s [s.current] s := by
  have nonempty := s.tokens_ne_nil_of_current h
  cases tokens : s.tokens with
  | nil => exact absurd tokens nonempty
  | cons token more => simp [Spans, current, tokens]

theorem Spans.append {first second : List Token} (h₁ : Spans s first m)
    (h₂ : Spans m.advance second t) : Spans s (first ++ second) t := by
  rw [Spans, h₁, List.append_assoc]
  exact congrArg (first ++ ·) h₂

theorem Spans.current_eq {token : Token} {more : List Token} (h : Spans s (token :: more) t) :
    s.current = token := by
  simp [current, show s.tokens = _ from h]

theorem spans_current_of {kind : Kind} (h : s.current.kind = kind) (notEnd : kind ≠ .endOfInput) :
    Spans s [s.current] s :=
  spans_current (h ▸ notEnd)

/-- The token behind the head, if it is there. -/
theorem spans_peek (h : s.peek.kind ≠ .endOfInput) : Spans s.advance [s.peek] s.advance :=
  spans_current (s := s.advance) h

theorem spans_peek_of {kind : Kind} (h : s.peek.kind = kind) (notEnd : kind ≠ .endOfInput) :
    Spans s.advance [s.peek] s.advance :=
  spans_peek (h ▸ notEnd)

end State

/-- A token of an allowed kind. -/
theorem exists_lexed {allowed : Kind → Prop} {token : Token} (h : allowed token.kind) :
    ∃ sign : Lexed allowed, sign.token = token := ⟨⟨token, h⟩, rfl⟩

theorem exists_sign {kind : Kind} {token : Token} (h : token.kind = kind) :
    ∃ sign : Sign kind, sign.token = token := exists_lexed h

namespace Parser

open State

variable {s m t : State} {expr : Precedence → Parser Expression} {levels : Nat}

/-- Every clean run of a parser of expressions has read a proper phrase with at most so many
levels.  It ends where no operator is left that binds tighter than the bound, and the phrase holds
together more tightly than the bound. -/
def Sound (gaps : GapRule) (expr : Precedence → Parser Expression) (levels : Nat) : Prop :=
  ∀ ⦃bound : Precedence⦄ ⦃s t : State⦄ ⦃e : Expression⦄, bound ≤ .unary →
    (expr bound).Reads (fun _ => False) s e t →
      ∃ phrase : Phrase gaps, Spans s phrase.tokens t ∧ phrase.tree = e ∧ phrase.Proper ∧
        phrase.nesting ≤ levels ∧ (bound < phrase.strength ∨ .unary ≤ phrase.strength) ∧
        ¬bound < .ofKind t.peek.kind

theorem lowest_le_unary : Precedence.lowest ≤ .unary := by decide

/-! ### Lists -/

/-- If every item has been written, the list with its commas has. -/
theorem items_sound {α β : Type} {item : Parser α} (tokens : β → List Token) (value : β → α)
    (good : β → Prop)
    (h : ∀ {s v t}, item.Reads (fun _ => False) s v t →
      ∃ b, Spans s.advance (tokens b) t ∧ value b = v ∧ good b) {vs : List α}
    (read : (items item).Reads (fun _ => False) s vs t) :
    ∃ list : Separated β, Spans s.advance (list.tokens tokens) t ∧ list.items.map value = vs ∧
      ∀ b ∈ list.items, good b := by
  induction vs generalizing s with
  | nil =>
    obtain ⟨v, m, -, ⟨-, same, -⟩ | ⟨-, later, -, same⟩⟩ := reads_items.1 read
    · exact absurd same (by simp)
    · exact absurd same (by simp)
  | cons v vs ih =>
    obtain ⟨v', m, first, ⟨-, same, rfl⟩ | ⟨comma, later, rest, same⟩⟩ := reads_items.1 read
    · obtain ⟨b, spans, rfl, isGood⟩ := h first
      refine ⟨.last b, spans, ?_, ?_⟩
      · simpa [Separated.items] using same
      · simpa [Separated.items] using isGood
    · obtain ⟨rfl, rfl⟩ := List.cons.inj same
      obtain ⟨b, spans, rfl, isGood⟩ := h first
      obtain ⟨list, spans', rfl, areGood⟩ := ih rest
      obtain ⟨sign, sign_eq⟩ := exists_sign comma
      refine ⟨.more b sign list, ?_, ?_, ?_⟩
      · -- the comma stands between the first item and the others
        have here : Spans m.advance [m.peek] m.advance := spans_peek_of comma (by decide)
        rw [Separated.tokens, sign_eq]
        exact spans.append (here.append spans')
      · simp [Separated.items]
      · simpa [Separated.items] using ⟨isGood, areGood⟩

/-! ### Statements and blocks -/

/-- A semicolon behind a value is part of what has been written. -/
theorem semicolon_sound (h : (if m.peek.kind = .semicolon then m.advance else m) = t) :
    ∃ semicolon : Option (Sign .semicolon),
      (∀ {s tokens}, Spans s tokens m →
        Spans s (tokens ++ (semicolon.map Lexed.token).toList) t) ∧
      (semicolon = none → m = t) := by
  by_cases kind : m.peek.kind = .semicolon
  · rw [if_pos kind] at h
    subst h
    obtain ⟨sign, sign_eq⟩ := exists_sign kind
    refine ⟨some sign, fun spans => ?_, by simp⟩
    have here : Spans m.advance [m.peek] m.advance := spans_peek_of kind (by decide)
    simpa [sign_eq] using spans.append here
  · rw [if_neg kind] at h
    subst h
    exact ⟨none, fun spans => by simpa using spans, fun _ => rfl⟩

theorem statement_sound (h : Sound gaps expr levels) {v : Statement}
    (read : (statement expr).Reads (fun _ => False) s v t)
    (notEnded : s.current.kind ≠ .endOfInput) :
    ∃ clause : Clause gaps, Spans s clause.tokens t ∧ clause.tree = v ∧ clause.Proper ∧
      clause.nesting ≤ levels ∧
      (clause.semicolon = none → ¬Precedence.lowest < .ofKind t.peek.kind) := by
  obtain ⟨u, inner, rfl⟩ := (reads_statement expr).1 read
  have here : Spans s [s.current] s := spans_current notEnded
  by_cases binding : s.current.kind = .letWord
  · obtain ⟨name, assign, value, m, body, skipped, rfl⟩ :=
      (reads_statementAt_binding expr binding).1 inner
    obtain ⟨phrase, spans, rfl, proper, nesting, -, weak⟩ := h lowest_le_unary body
    obtain ⟨semicolon, skips, same⟩ := semicolon_sound skipped
    obtain ⟨wordSign, word_eq⟩ := exists_sign binding
    obtain ⟨nameSign, name_eq⟩ := exists_sign name
    obtain ⟨assignSign, assign_eq⟩ := exists_sign assign
    refine ⟨⟨.binding wordSign nameSign assignSign, phrase, semicolon⟩, ?_, ?_, proper, nesting,
      fun none => same none ▸ weak⟩
    · have second : Spans s.advance [s.peek] s.advance :=
        spans_peek_of name (by decide)
      have third : Spans s.advance.advance [s.advance.peek] s.advance.advance :=
        spans_peek_of assign (by decide)
      rw [Clause.tokens, Lead.tokens, word_eq, name_eq, assign_eq]
      exact here.append (second.append (third.append (skips spans)))
    · rw [Clause.tree, Lead.statement, Sign.identifier, word_eq, name_eq]
  by_cases result : s.current.kind = .returnWord
  · obtain ⟨value, m, body, skipped, rfl⟩ := (reads_statementAt_result expr result).1 inner
    obtain ⟨phrase, spans, rfl, proper, nesting, -, weak⟩ := h lowest_le_unary body
    obtain ⟨semicolon, skips, same⟩ := semicolon_sound skipped
    obtain ⟨wordSign, word_eq⟩ := exists_sign result
    refine ⟨⟨.result wordSign, phrase, semicolon⟩, ?_, ?_, proper, nesting,
      fun none => same none ▸ weak⟩
    · rw [Clause.tokens, Lead.tokens, word_eq]
      exact here.append (skips spans)
    · rw [Clause.tree, Lead.statement, word_eq]
  · obtain ⟨value, m, body, skipped, rfl⟩ :=
      (reads_statementAt_expression expr binding result).1 inner
    obtain ⟨phrase, spans, rfl, proper, nesting, -, weak⟩ := h lowest_le_unary body
    obtain ⟨semicolon, skips, same⟩ := semicolon_sound skipped
    refine ⟨⟨.bare, phrase, semicolon⟩, skips spans, ?_, proper, nesting,
      fun none => same none ▸ weak⟩
    obtain ⟨more, tokens_eq⟩ := phrase.tokens_eq_cons
    rw [tokens_eq] at spans
    rw [Clause.tree, Lead.statement, ← spans.current_eq]
    rfl

/-- What is read next decides that a semicolon could be left out. -/
theorem endsBefore_of_weak {tokens : List Token} {rest : List Token}
    (spans : s.tokens = tokens ++ rest) (weak : ¬Precedence.lowest < .ofKind s.current.kind) :
    EndsBefore tokens := by
  intro token head
  obtain ⟨more, rfl⟩ : ∃ more, tokens = token :: more := by
    cases tokens with
    | nil => exact absurd head (by simp)
    | cons first more => exact ⟨more, by simpa using head⟩
  have current : s.current = token := by simp [State.current, spans]
  rw [current] at weak
  constructor
  · intro kind
    exact weak (by rw [kind]; decide)
  · intro kind
    exact weak (by rw [kind]; decide)

theorem statements_sound (h : Sound gaps expr levels) {depth : Nat} {vs : List Statement}
    (read : (statements expr depth).Reads (fun _ => False) s vs t) :
    ∃ (clauses : List (Clause gaps)) (closing : Sign .rightBrace),
      Spans s (clauseTokens clauses ++ [closing.token]) t ∧ clauseTrees clauses = vs ∧
        ProperClauses clauses ∧ clauseNesting clauses ≤ levels := by
  induction vs generalizing s with
  | nil =>
    obtain ⟨closed, -, rfl⟩ | ⟨-, -, v, m, later, -, -, same⟩ := (reads_statements expr).1 read
    · obtain ⟨sign, sign_eq⟩ := exists_sign closed
      refine ⟨[], sign, ?_, by simp [clauseTrees], trivial, Nat.zero_le _⟩
      rw [sign_eq]
      exact spans_current_of closed (by decide)
    · exact absurd same (by simp)
  | cons v vs ih =>
    obtain ⟨-, same, -⟩ | ⟨-, notEnded, v', m, later, first, rest, same⟩ :=
      (reads_statements expr).1 read
    · exact absurd same (by simp)
    obtain ⟨rfl, rfl⟩ := List.cons.inj same
    obtain ⟨clause, spans, rfl, proper, nesting, weak⟩ := statement_sound h first notEnded
    obtain ⟨clauses, closing, spans', rfl, proper', nesting'⟩ := ih rest
    refine ⟨clause :: clauses, closing, ?_, by simp [clauseTrees], ⟨proper, ?_, proper'⟩,
      Nat.max_le.2 ⟨nesting, nesting'⟩⟩
    · rw [clauseTokens, List.append_assoc]
      exact spans.append spans'
    · -- a value without a semicolon ends at a token that binds nothing
      intro none
      rw [Spans, List.append_assoc] at spans'
      exact endsBefore_of_weak spans' (weak none)

theorem block_sound (h : Sound gaps expr levels) {b : Block} (opened : s.current.kind = .leftBrace)
    (read : (block expr).Reads (fun _ => False) s b t) :
    ∃ passage : Passage gaps, Spans s passage.tokens t ∧ passage.tree = b ∧ passage.Proper ∧
      passage.nesting ≤ levels := by
  obtain ⟨body, inner, rfl⟩ := (reads_block expr).1 read
  obtain ⟨clauses, closing, spans, rfl, proper, nesting⟩ := statements_sound h inner
  obtain ⟨opening, opening_eq⟩ := exists_sign opened
  refine ⟨.block opening clauses closing, ?_, by rw [Passage.tree, opening_eq], proper, nesting⟩
  have here : Spans s [s.current] s := spans_current_of opened (by decide)
  rw [Passage.tokens, opening_eq]
  exact here.append spans

/-! ### Operands -/

theorem conditional_sound (h : Sound gaps expr levels) {e : Expression}
    (word : s.current.kind = .ifWord)
    (read : (conditional expr s.current).Reads (fun _ => False) s e t) :
    ∃ phrase : Phrase gaps, Spans s phrase.tokens t ∧ phrase.tree = e ∧ phrase.Proper ∧
      phrase.nesting ≤ levels + 1 ∧ phrase.strength = .call ∧ phrase.spine = [] := by
  obtain ⟨opened, condition, m, inner, closed, braced, consequence, n, first, rest⟩ :=
    (reads_conditional expr).1 read
  obtain ⟨phrase, spans, rfl, proper, nesting, -, -⟩ := h lowest_le_unary inner
  obtain ⟨passage, spans', rfl, proper', nesting'⟩ :=
    block_sound h (s := m.advance.advance) braced first
  obtain ⟨wordSign, word_eq⟩ := exists_sign word
  obtain ⟨opening, opening_eq⟩ := exists_sign opened
  obtain ⟨closing, closing_eq⟩ := exists_sign closed
  have here : Spans s [s.current] s := spans_current_of word (by decide)
  have second : Spans s.advance [s.peek] s.advance := spans_peek_of opened (by decide)
  have third : Spans m.advance [m.peek] m.advance := spans_peek_of closed (by decide)
  have front := here.append (second.append (spans.append (third.append spans')))
  obtain ⟨-, rfl, rfl⟩ | ⟨elseKind, elseBrace, alternative, last, rfl⟩ := rest
  · refine ⟨.conditional wordSign opening phrase closing passage none, ?_, ?_,
      ⟨proper, proper', trivial⟩, ?_, rfl, rfl⟩
    · simpa [Phrase.tokens, alternativeTokens, word_eq, opening_eq, closing_eq] using front
    · simp [Phrase.tree, alternativeTree, word_eq]
    · simp only [Phrase.nesting, alternativeNesting]
      omega
  · obtain ⟨passage', spans'', rfl, proper'', nesting''⟩ :=
      block_sound h (s := n.advance.advance) elseBrace last
    obtain ⟨elseSign, else_eq⟩ := exists_sign elseKind
    have fourth : Spans n.advance [n.peek] n.advance := spans_peek_of elseKind (by decide)
    refine ⟨.conditional wordSign opening phrase closing passage (some (elseSign, passage')), ?_,
      ?_, ⟨proper, proper', proper''⟩, ?_, rfl, rfl⟩
    · simpa [Phrase.tokens, alternativeTokens, word_eq, opening_eq, closing_eq, else_eq]
        using front.append (fourth.append spans'')
    · simp [Phrase.tree, alternativeTree, word_eq]
    · simp only [Phrase.nesting, alternativeNesting]
      omega

theorem parameters_sound {names : List Identifier}
    (read : (listed parameter).Reads (fun _ => False) s names t) :
    ∃ (parameters : Option (Separated (Sign .identifier))) (closing : Sign .rightParen),
      Spans s.advance (parameterTokens parameters ++ [closing.token]) t ∧
        parameterNames parameters = names := by
  obtain ⟨closed, rfl, rfl⟩ | ⟨-, m, inner, closed, rfl⟩ := reads_listed.1 read
  · obtain ⟨closing, closing_eq⟩ := exists_sign closed
    refine ⟨none, closing, ?_, rfl⟩
    simpa [closing_eq, parameterTokens] using spans_peek_of closed (by decide)
  · obtain ⟨closing, closing_eq⟩ := exists_sign closed
    have last : Spans m.advance [m.peek] m.advance := spans_peek_of closed (by decide)
    obtain ⟨list, spans, rfl, -⟩ := items_sound Lexed.tokens Sign.identifier (fun _ => True)
      (fun {s v t} read => by
        obtain ⟨kind, rfl, rfl⟩ := reads_parameter.1 read
        obtain ⟨sign, sign_eq⟩ := exists_sign kind
        refine ⟨sign, ?_, by rw [Sign.identifier, sign_eq], trivial⟩
        rw [Lexed.tokens, sign_eq]
        exact spans_peek_of kind (by decide)) inner
    refine ⟨some list, closing, ?_, rfl⟩
    rw [closing_eq]
    exact spans.append last

theorem function_sound (h : Sound gaps expr levels) {e : Expression}
    (word : s.current.kind = .functionWord)
    (read : (function expr s.current).Reads (fun _ => False) s e t) :
    ∃ phrase : Phrase gaps, Spans s phrase.tokens t ∧ phrase.tree = e ∧ phrase.Proper ∧
      phrase.nesting ≤ levels + 1 ∧ phrase.strength = .call ∧ phrase.spine = [] := by
  obtain ⟨opened, names, m, inner, braced, body, rest, rfl⟩ := (reads_function expr).1 read
  obtain ⟨parameters, closing, spans, rfl⟩ := parameters_sound inner
  obtain ⟨passage, spans', rfl, proper, nesting⟩ := block_sound h (s := m.advance) braced rest
  obtain ⟨wordSign, word_eq⟩ := exists_sign word
  obtain ⟨opening, opening_eq⟩ := exists_sign opened
  have here : Spans s [s.current] s := spans_current_of word (by decide)
  have second : Spans s.advance [s.peek] s.advance := spans_peek_of opened (by decide)
  refine ⟨.function wordSign opening parameters closing passage, ?_, ?_, proper, ?_, rfl, rfl⟩
  · have whole := here.append (second.append (spans.append spans'))
    simpa [Phrase.tokens, word_eq, opening_eq] using whole
  · simp [Phrase.tree, word_eq]
  · simp only [Phrase.nesting]
    omega

/-- An operand holds together at least as tightly as any token behind it binds, and it has not been
built up with operators. -/
theorem operand_sound (h : Sound gaps expr levels) {e : Expression}
    (read : (operand expr).Reads (fun _ => False) s e t) :
    ∃ phrase : Phrase gaps, Spans s phrase.tokens t ∧ phrase.tree = e ∧ phrase.Proper ∧
      phrase.nesting ≤ levels + 1 ∧ .unary ≤ phrase.strength ∧
      .ofKind t.peek.kind ≤ phrase.strength ∧ phrase.spine = [] := by
  -- all operands but the unary operations hold together as tightly as can be
  have tight {phrase : Phrase gaps} (strength : phrase.strength = .call)
      (first : phrase.spine = []) :
      .unary ≤ phrase.strength ∧ .ofKind t.peek.kind ≤ phrase.strength ∧ phrase.spine = [] := by
    rw [strength]
    exact ⟨by decide, Precedence.le_call _, first⟩
  have unary (operator : s.current.kind.IsUnary)
      (read : (unary expr s.current).Reads (fun _ => False) s e t) :
      ∃ phrase : Phrase gaps, Spans s phrase.tokens t ∧ phrase.tree = e ∧ phrase.Proper ∧
        phrase.nesting ≤ levels + 1 ∧ .unary ≤ phrase.strength ∧
        .ofKind t.peek.kind ≤ phrase.strength ∧ phrase.spine = [] := by
    obtain ⟨operand, inner, rfl⟩ := (reads_unary expr).1 read
    obtain ⟨phrase, spans, rfl, proper, nesting, strength, weak⟩ := h (by decide) inner
    obtain ⟨sign, sign_eq⟩ := exists_lexed operator
    have current : Spans s [s.current] s := spans_current fun ended => by
      rw [ended] at operator
      exact operator
    refine ⟨.unary sign phrase, ?_, ?_, ⟨?_, proper⟩, ?_, Nat.le_refl _, ?_, rfl⟩
    · simpa [Phrase.tokens, sign_eq] using current.append spans
    · simp [Phrase.tree, sign_eq]
    · simp only [Precedence.lt_iff_rank, Precedence.le_iff_rank] at strength ⊢
      omega
    · simp only [Phrase.nesting]
      omega
    · simp only [Phrase.strength, Precedence.lt_iff_rank, Precedence.le_iff_rank] at weak ⊢
      omega
  rw [reads_operand] at read
  split at read
  case h_1 kind =>
    obtain ⟨rfl, rfl⟩ := read
    obtain ⟨sign, sign_eq⟩ := exists_sign kind
    refine ⟨.name sign, ?_, ?_, trivial, Nat.le_add_left _ _, tight rfl rfl⟩
    · simpa [Phrase.tokens, sign_eq] using spans_current_of kind (by decide)
    · simp [Phrase.tree, Sign.identifier, sign_eq]
  case h_2 kind =>
    obtain ⟨inRange, rfl, rfl⟩ := reads_integer.1 read
    obtain ⟨sign, sign_eq⟩ := exists_sign kind
    refine ⟨.numeral sign, ?_, ?_, ?_, Nat.le_add_left _ _, tight rfl rfl⟩
    · simpa [Phrase.tokens, sign_eq] using spans_current_of kind (by decide)
    · simp [Phrase.tree, sign_eq]
    · simpa [Phrase.Proper, sign_eq] using inRange
  case h_3 kind =>
    obtain ⟨rfl, rfl⟩ := read
    obtain ⟨sign, sign_eq⟩ := exists_lexed (show s.current.kind.IsTruth by rw [kind]; trivial)
    refine ⟨.truth sign, ?_, ?_, trivial, Nat.le_add_left _ _, tight rfl rfl⟩
    · simpa [Phrase.tokens, sign_eq] using spans_current_of kind (by decide)
    · simp [Phrase.tree, sign_eq, kind]
  case h_4 kind =>
    obtain ⟨rfl, rfl⟩ := read
    obtain ⟨sign, sign_eq⟩ := exists_lexed (show s.current.kind.IsTruth by rw [kind]; trivial)
    refine ⟨.truth sign, ?_, ?_, trivial, Nat.le_add_left _ _, tight rfl rfl⟩
    · simpa [Phrase.tokens, sign_eq] using spans_current_of kind (by decide)
    · simp [Phrase.tree, sign_eq, kind]
  case h_5 kind => exact unary (by rw [kind]; trivial) read
  case h_6 kind => exact unary (by rw [kind]; trivial) read
  case h_7 kind =>
    obtain ⟨m, inner, closed, rfl⟩ := (reads_group expr).1 read
    obtain ⟨phrase, spans, rfl, proper, nesting, -, -⟩ := h lowest_le_unary inner
    obtain ⟨opening, opening_eq⟩ := exists_sign kind
    obtain ⟨closing, closing_eq⟩ := exists_sign closed
    have first := spans_current_of kind (by decide)
    have last : Spans m.advance [m.peek] m.advance := spans_peek_of closed (by decide)
    refine ⟨.group opening phrase closing, ?_, phrase.tree_group opening closing, proper, ?_,
      tight rfl rfl⟩
    · simpa [Phrase.tokens, opening_eq, closing_eq] using first.append (spans.append last)
    · simp only [Phrase.nesting]
      omega
  case h_8 kind =>
    obtain ⟨phrase, spans, tree, proper, nesting, strength, first⟩ := conditional_sound h kind read
    exact ⟨phrase, spans, tree, proper, nesting, tight strength first⟩
  case h_9 kind =>
    obtain ⟨phrase, spans, tree, proper, nesting, strength, first⟩ := function_sound h kind read
    exact ⟨phrase, spans, tree, proper, nesting, tight strength first⟩
  case h_10 => exact read.elim

/-! ### Operators -/

/-- An operator with what it takes, behind an operand that holds together at least as tightly. -/
theorem operation_sound (h : Sound gaps expr levels) {start : State} {left : Phrase gaps}
    {e : Expression} (spans : Spans start left.tokens s) (proper : left.Proper)
    (nesting : left.nesting ≤ levels + 1) (strength : .ofKind s.peek.kind ≤ left.strength)
    (binds : .lowest < Precedence.ofKind s.peek.kind)
    (read : (operation expr left.tree).Reads (fun _ => False) s.advance e t) :
    ∃ phrase : Phrase gaps, Spans start phrase.tokens t ∧ phrase.tree = e ∧ phrase.Proper ∧
      phrase.nesting ≤ levels + 1 ∧ .ofKind s.peek.kind ≤ phrase.strength ∧
      .ofKind t.peek.kind ≤ phrase.strength ∧ phrase.spine = s.peek :: left.spine := by
  have here : Spans s.advance [s.peek] s.advance := by
    apply spans_peek
    intro ended
    rw [ended] at binds
    exact absurd binds (by decide)
  obtain ⟨opened, arguments, inner, rfl⟩ | ⟨notOpened, right, inner, rfl⟩ :=
    (reads_operation expr).1 read
  · have opened : s.peek.kind = .leftParen := opened
    obtain ⟨opening, opening_eq⟩ := exists_sign opened
    rw [opened] at strength
    have tight : Precedence.ofKind s.peek.kind ≤ .call := Precedence.le_call _
    obtain ⟨closed, rfl, rfl⟩ | ⟨-, m, rest, closed, rfl⟩ := reads_listed.1 inner
    · obtain ⟨closing, closing_eq⟩ := exists_sign closed
      have last := spans_peek_of (s := s.advance) closed (by decide)
      refine ⟨.call left opening none closing, ?_, ?_, ⟨strength, proper, trivial⟩, ?_, tight,
        Precedence.le_call _, by rw [Phrase.spine, opening_eq]⟩
      · simpa [Phrase.tokens, argumentTokens, opening_eq, closing_eq]
          using spans.append (here.append last)
      · simp [Phrase.tree, argumentTrees, opening_eq]
      · simp only [Phrase.nesting, argumentNesting]
        omega
    · obtain ⟨closing, closing_eq⟩ := exists_sign closed
      have last : Spans m.advance [m.peek] m.advance := spans_peek_of closed (by decide)
      obtain ⟨list, spans', rfl, good⟩ := items_sound Phrase.tokens Phrase.tree
        (fun phrase : Phrase gaps => phrase.Proper ∧ phrase.nesting ≤ levels)
        (fun {s v t} read => by
          obtain ⟨phrase, spans, rfl, proper, nesting, -, -⟩ :=
            h lowest_le_unary ((reads_argument expr).1 read)
          exact ⟨phrase, spans, rfl, proper, nesting⟩) rest
      have proper' := (properSeparated_iff list).2 fun b member => (good b member).1
      have nesting' := (separatedNesting_le_iff list).2 fun b member => (good b member).2
      refine ⟨.call left opening (some list) closing, ?_, ?_, ⟨strength, proper, proper'⟩, ?_,
        tight, Precedence.le_call _, by rw [Phrase.spine, opening_eq]⟩
      · simpa [Phrase.tokens, argumentTokens, separatedTokens_eq, opening_eq, closing_eq]
          using spans.append (here.append (spans'.append last))
      · simp [Phrase.tree, argumentTrees, separatedTrees_eq, opening_eq]
      · simp only [Phrase.nesting, argumentNesting]
        omega
  · have binary : s.peek.kind.IsBinary := Kind.isBinary_iff.2 ⟨binds, notOpened⟩
    have below := binary.lt_unary
    -- the right operand is read at the strength of the operator, so it holds together more tightly
    -- and ends at a token that binds no tighter than the operator
    obtain ⟨phrase, spans', rfl, proper', nesting', strength', weak⟩ :=
      h (Nat.le_of_lt binary.lt_unary) inner
    obtain ⟨sign, sign_eq⟩ := exists_lexed binary
    refine ⟨.binary left sign phrase, ?_, ?_, ⟨?_, ?_, proper, proper'⟩, ?_, ?_, ?_,
      by rw [Phrase.spine, sign_eq]⟩
    · simpa [Phrase.tokens, sign_eq] using spans.append (here.append spans')
    · simp [Phrase.tree, sign_eq]
    · rwa [sign_eq]
    · rw [sign_eq]
      simp only [Precedence.lt_iff_rank, Precedence.le_iff_rank] at strength' below ⊢
      omega
    · simp only [Phrase.nesting]
      omega
    · rw [Phrase.strength, sign_eq]
      exact Nat.le_refl _
    · rw [Phrase.strength, sign_eq]
      exact Nat.le_of_not_lt weak

/-- The loop over operators.  It keeps an operand that holds together at least as tightly as the
next token binds, and that has been built up with operators tighter than the bound. -/
theorem fold_sound (h : Sound gaps expr levels) {bound : Precedence} {start : State}
    {left : Phrase gaps} {e : Expression} (spans : Spans start left.tokens s)
    (proper : left.Proper) (nesting : left.nesting ≤ levels + 1)
    (bounded : bound < left.strength ∨ .unary ≤ left.strength)
    (strength : .ofKind s.peek.kind ≤ left.strength)
    (built : ∀ token ∈ left.spine, bound < .ofKind token.kind)
    (read : (fold expr bound left.tree).Reads (fun _ => False) s e t) :
    ∃ phrase : Phrase gaps, Spans start phrase.tokens t ∧ phrase.tree = e ∧ phrase.Proper ∧
      phrase.nesting ≤ levels + 1 ∧ (bound < phrase.strength ∨ .unary ≤ phrase.strength) ∧
      ¬bound < .ofKind t.peek.kind ∧ ∀ token ∈ phrase.spine, bound < .ofKind token.kind := by
  induction length : s.tokens.length using Nat.strongRecOn generalizing s left with
  | ind n ih =>
    obtain ⟨weak, rfl, rfl⟩ | ⟨tighter, whole, m, step, rest⟩ := (reads_fold expr).1 read
    · exact ⟨left, spans, rfl, proper, nesting, bounded, weak, built⟩
    have binds : .lowest < Precedence.ofKind s.peek.kind :=
      Nat.lt_of_le_of_lt (Nat.zero_le _) tighter
    obtain ⟨phrase, spans', rfl, proper', nesting', taken, strength', grown⟩ :=
      operation_sound h spans proper nesting strength binds step
    have built' : ∀ token ∈ phrase.spine, bound < .ofKind token.kind := by
      rw [grown]
      exact List.forall_mem_cons.2 ⟨tighter, built⟩
    have shorter : m.tokens.length < n := by
      have moved := step.reaches.tokens_suffix.length_le
      have two := s.two_le_length_of_peek fun ended => by
        rw [ended] at binds
        exact absurd binds (by decide)
      rw [length_advance] at moved
      omega
    -- the operand has grown, and it holds together at least as tightly as the next token binds
    exact ih m.tokens.length shorter spans' proper' nesting'
      (.inl (Nat.lt_of_lt_of_le tighter taken)) strength' built' rest rfl

/-- An operand and the operators behind it. -/
theorem operators_sound (h : Sound gaps expr levels) {bound : Precedence} {e : Expression}
    (read : (operators expr bound).Reads (fun _ => False) s e t) :
    ∃ phrase : Phrase gaps, Spans s phrase.tokens t ∧ phrase.tree = e ∧ phrase.Proper ∧
      phrase.nesting ≤ levels + 1 ∧ (bound < phrase.strength ∨ .unary ≤ phrase.strength) ∧
      ¬bound < .ofKind t.peek.kind ∧ ∀ token ∈ phrase.spine, bound < .ofKind token.kind := by
  obtain ⟨left, m, first, rest⟩ := (reads_operators expr).1 read
  obtain ⟨phrase, spans, rfl, proper, nesting, tight, strength, first⟩ := operand_sound h first
  exact fold_sound h spans proper nesting (.inr tight) strength (by simp [first]) rest

/-- With so many levels left, what has been read is a phrase of at most that nesting. -/
theorem expressionWithin_sound (levels : Nat) : Sound gaps (expressionWithin levels) levels := by
  induction levels with
  | zero =>
    intro bound s t e _ read
    exact (not_reads_expressionWithin_zero read).elim
  | succ levels ih =>
    intro bound s t e _ read
    obtain ⟨m, inner, rfl⟩ := reads_expressionWithin.1 read
    obtain ⟨phrase, spans, tree, proper, nesting, bounded, weak, -⟩ := operators_sound ih inner
    exact ⟨phrase, spans, tree, proper, nesting, bounded, weak⟩

end Parser

/-! ### Whole programs -/

namespace State

variable {limit : Nat} {s t : State}

/-- The statements that are read in a clean run up to the end of input. -/
theorem readsAll_sound {vs : List Statement} (top : s.nesting = 0)
    (read : ReadsAll (fun _ => False) limit s vs t) :
    ∃ clauses : List (Clause gaps), s.tokens = clauseTokens clauses ++ t.tokens ∧
      clauseTrees clauses = vs ∧ ProperClauses clauses ∧ clauseNesting clauses ≤ limit ∧
      t.current.kind = .endOfInput := by
  induction vs generalizing s with
  | nil =>
    obtain ⟨ended, -, rfl⟩ | ⟨-, v, m, later, -, -, same⟩ := (readsAll_iff top).1 read
    · exact ⟨[], rfl, by simp [clauseTrees], trivial, Nat.zero_le _, ended⟩
    · exact absurd same (by simp)
  | cons v vs ih =>
    obtain ⟨-, same, -⟩ | ⟨notEnded, v', m, later, first, rest, same⟩ := (readsAll_iff top).1 read
    · exact absurd same (by simp)
    obtain ⟨rfl, rfl⟩ := List.cons.inj same
    have top' : m.advance.nesting = 0 := first.reaches.nesting_eq.trans top
    obtain ⟨clause, spans, rfl, proper, nesting, weak⟩ : ∃ clause : Clause gaps, _ :=
      Parser.statement_sound (Parser.expressionWithin_sound limit) first notEnded
    obtain ⟨clauses, tokens, rfl, proper', nesting', ended⟩ := ih top' rest
    refine ⟨clause :: clauses, ?_, by simp [clauseTrees], ⟨proper, ?_, proper'⟩,
      Nat.max_le.2 ⟨nesting, nesting'⟩, ended⟩
    · rw [clauseTokens, List.append_assoc, ← tokens]
      exact spans
    · intro none
      exact Parser.endsBefore_of_weak tokens (weak none)

end State

/-- Tokens that are parsed without fault are those of a proper document. -/
theorem Parsed.ofTokens_sound {limit : Nat} {tokens : List Token} {finish : Location}
    (notEnded : ∀ token ∈ tokens, token.kind ≠ .endOfInput)
    (clean : (ofTokens limit tokens finish).faults = []) :
    ∃ document : Document gaps, document.tokens = tokens ∧
      document.tree = (ofTokens limit tokens finish).program ∧ document.Proper ∧
      document.nesting ≤ limit := by
  have read : (State.ofTokens tokens finish).ReadsAll (fun _ => False) limit
      ((State.ofTokens tokens finish).statements limit).1
      ((State.ofTokens tokens finish).statements limit).2 :=
    ⟨rfl, State.adds_none_iff.2 clean⟩
  obtain ⟨clauses, spans, trees, proper, nesting, ended⟩ := State.readsAll_sound rfl read
  -- the loop stops at the end of input only, so it has come behind the last token
  have final : ((State.ofTokens tokens finish).statements limit).2.tokens = [] := by
    cases rest : ((State.ofTokens tokens finish).statements limit).2.tokens with
    | nil => rfl
    | cons token more =>
      refine absurd ?_ (notEnded token ?_)
      · simpa [State.current, rest] using ended
      · rw [show tokens = _ from spans, rest]
        simp
  refine ⟨⟨clauses⟩, ?_, ?_, proper, nesting⟩
  · rw [show tokens = _ from spans, final, List.append_nil]
    rfl
  · rw [Document.tree, trees]
    rfl

/-- **A clean parse is a derivation**: if a text is parsed without fault, its tokens are those of a
proper document, each once and in their order, and the program is the tree of that document. -/
theorem exists_document_of_clean (source : String)
    (clean : (Parsed.ofString source).faults = []) :
    ∃ document : Document noGaps, document.tokens = (Lexer.ofString source).tokens ∧
      document.tree = (Parsed.ofString source).program ∧ document.Proper := by
  obtain ⟨document, tokens, tree, proper, -⟩ : ∃ document : Document noGaps, _ :=
    Parsed.ofTokens_sound (Lexer.ofString source).kind_ne_of_mem_tokens clean
  exact ⟨document, tokens, tree, proper⟩

/-- A text with optional semicolons, grouping, both kinds of operators, a call and a choice. -/
theorem exists_document_of_choice :
    (Parsed.ofString
        "let f = fn(a, b) \x7b a - (b - 1) \x7d f(-1, 2)(x); if (!y) \x7b y; \x7d").faults = [] ∧
      ∃ document : Document noGaps,
        document.tokens = (Lexer.ofString
          "let f = fn(a, b) \x7b a - (b - 1) \x7d f(-1, 2)(x); if (!y) \x7b y; \x7d").tokens ∧
        document.tree = (Parsed.ofString
          "let f = fn(a, b) \x7b a - (b - 1) \x7d f(-1, 2)(x); if (!y) \x7b y; \x7d").program ∧
        document.Proper :=
  ⟨by decide +kernel, exists_document_of_clean _ (by decide +kernel)⟩

end MonkeyLang
