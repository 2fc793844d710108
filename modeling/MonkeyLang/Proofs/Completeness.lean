import MonkeyLang.Proofs.Phrase
import MonkeyLang.Proofs.Reading
import MonkeyLang.Proofs.View

/-!
# What is written is read

The tokens of a proper phrase, clause or passage whose nesting stays within the levels that are left
are read in a run without fault, and the value read is the tree.  Gaps are no obstacle as long as
they can be filled: `Fills` says that the block parser gets through a gap with tolerated faults
only.  The tree is then found up to what stands in the gaps, that is, through a view in which their
statements are hidden.

The heart is `Phrase.Begins`.  The left operand of an operator is not read by a call of its own: the
loop over operators comes to it and goes on from there.  So the statement about a phrase is that the
loop gets to its end with its tree in hand, whatever operators follow that the phrase holds against.
`hereditary_complete` proves it by induction on what is written, and a phrase is `Complete` because
the loop stops where no operator follows.
-/

namespace MonkeyLang

open MonkeyLang.Parser

variable {gaps : GapRule} {tolerated : Fault → Prop} {v : View}

/-! ### The next token -/

/-- An expression that holds together as tightly as `strength` says may end before these tokens: the
next one binds no tighter, and it does not go on with a choice. -/
def Stops (strength : Precedence) (rest : List Token) : Prop :=
  ∀ token, rest.head? = some token →
    .ofKind token.kind ≤ strength ∧ token.kind ≠ .elseWord

theorem stops_nil {p : Precedence} : Stops p [] := by
  intro token head
  simp at head

theorem stops_cons {p : Precedence} {token : Token} {rest : List Token}
    (weak : .ofKind token.kind ≤ p) (notElse : token.kind ≠ .elseWord) :
    Stops p (token :: rest) := by
  rintro _ ⟨⟩
  exact ⟨weak, notElse⟩

/-- An expression may end before a token that does not bind at all. -/
theorem stops_sign {p : Precedence} {kind : Kind} (sign : Sign kind) (rest : List Token)
    (weak : Precedence.ofKind kind = .lowest) (notElse : kind ≠ .elseWord) :
    Stops p (sign.token :: rest) := by
  refine stops_cons ?_ (by rwa [sign.kind_eq])
  rw [sign.kind_eq, weak]
  exact Nat.zero_le _

theorem Stops.mono {p q : Precedence} {rest : List Token} (h : Stops p rest) (le : p ≤ q) :
    Stops q rest :=
  fun token head => ⟨Nat.le_trans (h token head).1 le, (h token head).2⟩

namespace State

variable {s : State} {token : Token} {rest : List Token}

theorem current_eq (h : s.tokens = token :: rest) : s.current = token := by
  simp [current, h]

theorem peek_eq (h : s.tokens.tail = token :: rest) : s.peek = token := by
  simp [peek, h]

theorem current_of_nil (h : s.tokens = []) : s.current.kind = .endOfInput := by
  simp [current, h, Token.endOfInput]

theorem peek_of_stops {p : Precedence} (h : s.tokens.tail = rest) (stops : Stops p rest) :
    .ofKind s.peek.kind ≤ p ∧ s.peek.kind ≠ .elseWord := by
  cases rest with
  | nil =>
    have ended : s.peek.kind = .endOfInput := by simp [peek, h, Token.endOfInput]
    rw [ended]
    exact ⟨Nat.zero_le _, by decide⟩
  | cons token more =>
    rw [peek_eq h]
    exact stops token rfl

end State

/-- The kinds of token with which an expression begins. -/
def Kind.Starts : Kind → Prop
  | identifier | integer | trueWord | falseWord | bang | minus | leftParen | ifWord
  | functionWord => True
  | _ => False

namespace Kind.Starts

variable {kind : Kind}

theorem ne_rightParen (h : kind.Starts) : kind ≠ .rightParen := by
  rintro rfl
  exact h

theorem ne_letWord (h : kind.Starts) : kind ≠ .letWord := by
  rintro rfl
  exact h

theorem ne_returnWord (h : kind.Starts) : kind ≠ .returnWord := by
  rintro rfl
  exact h

theorem ne_brace (h : kind.Starts) : kind ≠ .leftBrace ∧ kind ≠ .rightBrace := by
  constructor <;> rintro rfl <;> exact h

end Kind.Starts

theorem Phrase.starts (phrase : Phrase gaps) : phrase.first.kind.Starts := by
  cases phrase with
  | name word =>
    rw [first, word.kind_eq]
    trivial
  | numeral digits =>
    rw [first, digits.kind_eq]
    trivial
  | truth word =>
    rw [first]
    rcases Kind.isTruth_iff.1 word.kind with kind | kind <;> rw [kind] <;> trivial
  | group opening _ _ =>
    rw [first, opening.kind_eq]
    trivial
  | unary operator _ =>
    rw [first]
    rcases Kind.isUnary_iff.1 operator.kind with kind | kind <;> rw [kind] <;> trivial
  | binary left _ _ => exact left.starts
  | conditional word _ _ _ _ _ =>
    rw [first, word.kind_eq]
    trivial
  | function word _ _ _ _ =>
    rw [first, word.kind_eq]
    trivial
  | call callee _ _ _ => exact callee.starts

/-- A token that does not begin an expression but may stand behind a statement, or one of the words
with which a statement begins. -/
def Kind.StartsClause (kind : Kind) : Prop := kind.Starts ∨ kind = letWord ∨ kind = returnWord

theorem Clause.tokens_eq_cons (clause : Clause gaps) :
    ∃ token more, clause.tokens = token :: more ∧ token.kind.StartsClause := by
  obtain ⟨lead, value, semicolon⟩ := clause
  cases lead with
  | binding word name assign => exact ⟨word.token, _, rfl, .inr (.inl word.kind_eq)⟩
  | result word => exact ⟨word.token, _, rfl, .inr (.inr word.kind_eq)⟩
  | bare =>
    obtain ⟨more, h⟩ := value.tokens_eq_cons
    exact ⟨value.first, more ++ _, by rw [tokens, h]; rfl, .inl value.starts⟩

/-- A statement without a semicolon may end before these tokens. -/
def Ends (rest : List Token) : Prop :=
  Stops .lowest rest ∧ ∀ token, rest.head? = some token → token.kind ≠ .semicolon

theorem ends_nil : Ends [] := ⟨stops_nil, by simp⟩

theorem ends_brace (closing : Sign .rightBrace) (rest : List Token) :
    Ends (closing.token :: rest) := by
  refine ⟨stops_sign closing rest rfl (by decide), ?_⟩
  rintro token ⟨⟩
  rw [closing.kind_eq]
  decide

/-- Where a semicolon may be left out, the statement ends. -/
theorem ends_clauseTokens {clauses : List (Clause gaps)} {rest : List Token}
    (before : EndsBefore (clauseTokens clauses)) (behind : Ends rest) :
    Ends (clauseTokens clauses ++ rest) := by
  cases clauses with
  | nil => simpa [clauseTokens] using behind
  | cons clause clauses =>
    obtain ⟨token, more, tokens, starts⟩ := clause.tokens_eq_cons
    have head : clauseTokens (clause :: clauses) = token :: (more ++ clauseTokens clauses) := by
      rw [clauseTokens, tokens, List.cons_append]
    obtain ⟨notOpened, notMinus⟩ := before token (by rw [head]; rfl)
    have weak : Precedence.ofKind token.kind = .lowest := by
      cases h : token.kind <;> simp_all [Kind.StartsClause, Kind.Starts, Precedence.ofKind]
    rw [head]
    refine ⟨stops_cons (by rw [weak]; exact Nat.zero_le _) ?_, ?_⟩
    · intro kind
      simp [Kind.StartsClause, Kind.Starts, kind] at starts
    · rintro _ ⟨⟩ kind
      simp [Kind.StartsClause, Kind.Starts, kind] at starts

/-- A passage begins with its opening brace. -/
theorem Passage.tokens_eq_cons (passage : Passage gaps) :
    ∃ (opening : Sign .leftBrace) (more : List Token),
      passage.tokens = opening.token :: more := by
  cases passage with
  | block opening _ _ => exact ⟨opening, _, rfl⟩
  | gap opening _ _ _ => exact ⟨opening, _, rfl⟩

/-! ### What is to be shown -/

/-- The block parser gets through every gap, with tolerated faults only, and the statements that it
finds there are hidden. -/
structure Fills (gaps : GapRule) (tolerated : Fault → Prop) (v : View) : Prop where
  reads {opening : Token} {content : List Token} {closing : Token}
    (permitted : gaps opening content closing) (levels : Nat) {s : State} {rest : List Token}
    (counted : 0 < s.braceDepth) (tokens : s.tokens = opening :: (content ++ closing :: rest)) :
    ∃ b t, (Parser.block (expressionWithin levels)).Reads tolerated s b t ∧ t.tokens.tail = rest ∧
      b.token = opening
  hidden {opening : Token} {content : List Token} {closing : Token}
    (permitted : gaps opening content closing) : v.closed opening = true

/-- An opening brace that has been moved on to has been counted. -/
theorem State.braceDepth_advance_pos {s : State} (h : s.peek.kind = .leftBrace) :
    0 < s.advance.braceDepth := by
  rw [advance_braceDepth, h]
  exact Nat.succ_pos _

/-- Without gaps there is nothing to fill. -/
theorem fills_noGaps : Fills noGaps tolerated v := ⟨fun h => h.elim, fun h => h.elim⟩

section
variable (tolerated : Fault → Prop) (v : View)

/-- The loop over operators, started where the phrase begins, comes to the end of the phrase with
its tree in hand, provided that what follows binds no tighter than the phrase holds together. -/
def Phrase.Begins (phrase : Phrase gaps) : Prop :=
  ∀ ⦃levels : Nat⦄ ⦃bound : Precedence⦄ ⦃s : State⦄ ⦃rest : List Token⦄,
    phrase.nesting ≤ levels + 1 → bound ≤ .unary →
    bound < phrase.strength ∨ .unary ≤ phrase.strength →
    s.tokens = phrase.tokens ++ rest → Stops phrase.strength rest →
      ∃ e m, e.view v = phrase.tree.view v ∧ m.tokens.tail = rest ∧
        ∀ w t, (fold (expressionWithin levels) bound e).Reads tolerated m w t →
          (operators (expressionWithin levels) bound).Reads tolerated s w t

/-- The phrase is read where nothing follows that binds tighter than the bound. -/
def Phrase.Complete (phrase : Phrase gaps) : Prop :=
  ∀ ⦃levels : Nat⦄ ⦃bound : Precedence⦄ ⦃s : State⦄ ⦃rest : List Token⦄,
    phrase.nesting ≤ levels → bound ≤ .unary →
    bound < phrase.strength ∨ .unary ≤ phrase.strength →
    s.tokens = phrase.tokens ++ rest → Stops bound rest →
      ∃ e t, (expressionWithin levels bound).Reads tolerated s e t ∧ t.tokens.tail = rest ∧
        e.view v = phrase.tree.view v

/-- The passage is read, if its opening brace has been counted. -/
def Passage.Complete (passage : Passage gaps) : Prop :=
  ∀ ⦃levels : Nat⦄ ⦃s : State⦄ ⦃rest : List Token⦄,
    passage.nesting ≤ levels → 0 < s.braceDepth → s.tokens = passage.tokens ++ rest →
      ∃ b t, (Parser.block (expressionWithin levels)).Reads tolerated s b t ∧ t.tokens.tail = rest ∧
        b.view v = passage.tree.view v

/-- The clause is read, and if it has no semicolon, where it may end. -/
def Clause.Complete (clause : Clause gaps) : Prop :=
  ∀ ⦃levels : Nat⦄ ⦃s : State⦄ ⦃rest : List Token⦄,
    clause.nesting ≤ levels → s.tokens = clause.tokens ++ rest →
    (clause.semicolon = none → Ends rest) →
      ∃ w t, (statement (expressionWithin levels)).Reads tolerated s w t ∧ t.tokens.tail = rest ∧
        w.view v = clause.tree.view v

end

theorem Phrase.nesting_pos : ∀ phrase : Phrase gaps, 0 < phrase.nesting
  | .name _ | .numeral _ | .truth _ => Nat.one_pos
  | .group .. | .unary .. | .conditional .. | .function .. => by
    simp only [nesting]
    omega
  | .binary left _ _ => by
    have positive := left.nesting_pos
    simp only [nesting]
    omega
  | .call callee _ _ _ => by
    have positive := callee.nesting_pos
    simp only [nesting]
    omega

theorem Phrase.lowest_lt_strength (phrase : Phrase gaps) : .lowest < phrase.strength := by
  cases phrase with
  | binary _ operator _ => exact (Kind.isBinary_iff.1 operator.kind).1
  | _ =>
    simp only [strength, Precedence.lt_iff_rank, Precedence.rank]
    omega

/-- The loop stops where nothing follows that binds tighter than the bound. -/
theorem Phrase.Begins.complete {phrase : Phrase gaps} (h : phrase.Begins tolerated v) :
    phrase.Complete tolerated v := by
  intro levels bound s rest nesting below bounded tokens stops
  obtain ⟨levels, rfl⟩ : ∃ n, levels = n + 1 := by
    have positive := phrase.nesting_pos
    exact ⟨levels - 1, by omega⟩
  have holds : bound ≤ phrase.strength := by
    simp only [Precedence.lt_iff_rank, Precedence.le_iff_rank] at *
    omega
  obtain ⟨e, m, view, tail, reads⟩ :=
    @h levels bound { s with nesting := s.nesting + 1 } rest nesting below bounded tokens
      (stops.mono holds)
  -- at the end of the phrase nothing binds tighter than the bound, so the loop stops there
  have stopped : ¬bound < .ofKind m.peek.kind :=
    Nat.not_lt.2 (State.peek_of_stops tail stops).1
  refine ⟨e, { m with nesting := s.nesting }, ?_, tail, view⟩
  rw [reads_expressionWithin]
  exact ⟨m, reads e m ((reads_fold _).2 (.inl ⟨stopped, rfl, rfl⟩)), rfl⟩

/-- An expression between parentheses, or at the place of a value, is read up to where nothing
binds. -/
theorem Phrase.Complete.lowest {phrase : Phrase gaps} (h : phrase.Complete tolerated v)
    {levels : Nat} {s : State} {rest : List Token} (nesting : phrase.nesting ≤ levels)
    (tokens : s.tokens = phrase.tokens ++ rest) (stops : Stops .lowest rest) :
    ∃ e t, (expressionWithin levels .lowest).Reads tolerated s e t ∧ t.tokens.tail = rest ∧
      e.view v = phrase.tree.view v :=
  h nesting (by decide) (.inl phrase.lowest_lt_strength) tokens stops

/-! ### Operands -/

/-- An operand is what the loop over operators begins with. -/
theorem Phrase.begins_of_operand {phrase : Phrase gaps}
    (h : ∀ ⦃levels : Nat⦄ ⦃s : State⦄ ⦃rest : List Token⦄, phrase.nesting ≤ levels + 1 →
      s.tokens = phrase.tokens ++ rest → Stops phrase.strength rest →
        ∃ e m, (operand (expressionWithin levels)).Reads tolerated s e m ∧
          m.tokens.tail = rest ∧ e.view v = phrase.tree.view v) :
    phrase.Begins tolerated v := by
  intro levels bound s rest nesting _ _ tokens holds
  obtain ⟨e, m, reads, tail, view⟩ := h nesting tokens holds
  exact ⟨e, m, view, tail, fun w t folded => (reads_operators _).2 ⟨e, m, reads, folded⟩⟩

theorem begins_name (word : Sign .identifier) :
    (Phrase.name word : Phrase gaps).Begins tolerated v := by
  apply Phrase.begins_of_operand
  intro levels s rest _ tokens _
  refine ⟨(Phrase.name word : Phrase gaps).tree, s, ?_, by rw [tokens]; rfl, rfl⟩
  rw [reads_operand, State.current_eq tokens, word.kind_eq]
  exact ⟨rfl, rfl⟩

theorem begins_numeral {digits : Sign .integer}
    (proper : numeralValue digits.token.literal.toList ≤ maxInteger) :
    (Phrase.numeral digits : Phrase gaps).Begins tolerated v := by
  apply Phrase.begins_of_operand
  intro levels s rest _ tokens _
  refine ⟨(Phrase.numeral digits : Phrase gaps).tree, s, ?_, by rw [tokens]; rfl, rfl⟩
  rw [reads_operand, State.current_eq tokens, digits.kind_eq]
  exact reads_integer.2 ⟨proper, rfl, rfl⟩

theorem begins_truth (word : Lexed Kind.IsTruth) :
    (Phrase.truth word : Phrase gaps).Begins tolerated v := by
  apply Phrase.begins_of_operand
  intro levels s rest _ tokens _
  refine ⟨(Phrase.truth word : Phrase gaps).tree, s, ?_, by rw [tokens]; rfl, rfl⟩
  rw [reads_operand, State.current_eq tokens]
  rcases Kind.isTruth_iff.1 word.kind with kind | kind
  · simp [kind, Phrase.tree]
  · simp [kind, Phrase.tree]

theorem begins_group {inner : Phrase gaps} (opening : Sign .leftParen) (closing : Sign .rightParen)
    (h : inner.Complete tolerated v) : (Phrase.group opening inner closing).Begins tolerated v := by
  apply Phrase.begins_of_operand
  intro levels s rest nesting tokens _
  have ahead : s.tokens = opening.token :: (inner.tokens ++ closing.token :: rest) := by
    rw [tokens, Phrase.tokens, List.cons_append, List.append_assoc]
    rfl
  have nesting' : inner.nesting ≤ levels := by
    simp only [Phrase.nesting] at nesting
    omega
  obtain ⟨e, m, reads, tail, view⟩ := h.lowest (s := s.advance) nesting' (by simp [ahead])
    (stops_sign closing rest rfl (by decide))
  refine ⟨e, m.advance, ?_, by simp [tail], view⟩
  rw [reads_operand, State.current_eq ahead, opening.kind_eq]
  exact (reads_group _).2 ⟨m, reads, by rw [State.peek_eq tail, closing.kind_eq], rfl⟩

theorem begins_unary {inner : Phrase gaps} (operator : Lexed Kind.IsUnary)
    (strength : .unary ≤ inner.strength) (h : inner.Complete tolerated v) :
    (Phrase.unary operator inner).Begins tolerated v := by
  apply Phrase.begins_of_operand
  intro levels s rest nesting tokens holds
  have ahead : s.tokens = operator.token :: (inner.tokens ++ rest) := tokens
  have nesting' : inner.nesting ≤ levels := by
    simp only [Phrase.nesting] at nesting
    omega
  obtain ⟨e, m, reads, tail, view⟩ :=
    h (s := s.advance) nesting' (Nat.le_refl _) (.inr strength) (by simp [ahead]) holds
  have read : (Parser.unary (expressionWithin levels) operator.token).Reads tolerated s
      (.unary operator.token operator.token.literal e) m := (reads_unary _).2 ⟨e, reads, rfl⟩
  refine ⟨.unary operator.token operator.token.literal e, m, ?_, tail, ?_⟩
  · rw [reads_operand, State.current_eq ahead]
    rcases Kind.isUnary_iff.1 operator.kind with kind | kind
    · rwa [kind]
    · rwa [kind]
  · simp only [Expression.view, Phrase.tree, view]

theorem begins_conditional {condition : Phrase gaps} {consequence : Passage gaps}
    {alternative : Option (Sign .elseWord × Passage gaps)} (word : Sign .ifWord)
    (opening : Sign .leftParen) (closing : Sign .rightParen)
    (h₁ : condition.Complete tolerated v) (h₂ : consequence.Complete tolerated v)
    (h₃ : ∀ word body, alternative = some (word, body) → body.Complete tolerated v) :
    (Phrase.conditional word opening condition closing consequence alternative).Begins
      tolerated v := by
  apply Phrase.begins_of_operand
  intro levels s rest nesting tokens stops
  have ahead : s.tokens = word.token :: opening.token :: (condition.tokens ++ closing.token ::
      (consequence.tokens ++ (alternativeTokens alternative ++ rest))) := by
    rw [tokens, Phrase.tokens]
    simp
  simp only [Phrase.nesting] at nesting
  have nesting₁ : condition.nesting ≤ levels := by omega
  have nesting₂ : consequence.nesting ≤ levels := by omega
  have nesting₃ : alternativeNesting alternative ≤ levels := by omega
  obtain ⟨c, m, reads₁, tail₁, view₁⟩ := h₁.lowest (s := s.advance.advance) nesting₁
    (congrArg (fun tokens => tokens.tail.tail) ahead) (stops_sign closing _ rfl (by decide))
  obtain ⟨brace, more, front⟩ := consequence.tokens_eq_cons
  have braced : m.advance.peek.kind = .leftBrace := by
    rw [State.peek_eq (s := m.advance) (by rw [State.advance_tokens, tail₁, front]; rfl),
      brace.kind_eq]
  obtain ⟨b, n, reads₂, tail₂, view₂⟩ := h₂ (s := m.advance.advance) nesting₂
    (State.braceDepth_advance_pos braced) (congrArg List.tail tail₁)
  -- what has been read so far decides all but the second block
  have read (e : Expression) (t : State)
      (h : n.peek.kind ≠ .elseWord ∧ .conditional word.token c b none = e ∧ n = t ∨
        n.peek.kind = .elseWord ∧ n.advance.peek.kind = .leftBrace ∧
          ∃ a, (Parser.block (expressionWithin levels)).Reads tolerated n.advance.advance a t ∧
            .conditional word.token c b (some a) = e) :
      (operand (expressionWithin levels)).Reads tolerated s e t := by
    rw [reads_operand, State.current_eq ahead, word.kind_eq]
    refine (reads_conditional _).2 ⟨?_, c, m, reads₁, ?_, braced, b, n, reads₂, h⟩
    · rw [State.peek_eq (by rw [ahead]; rfl), opening.kind_eq]
    · rw [State.peek_eq tail₁, closing.kind_eq]
  cases alternative with
  | none =>
    have last : n.peek.kind ≠ .elseWord :=
      (State.peek_of_stops (by simpa [alternativeTokens] using tail₂) stops).2
    refine ⟨.conditional word.token c b none, n, read _ _ (.inl ⟨last, rfl, rfl⟩),
      by simpa [alternativeTokens] using tail₂, ?_⟩
    simp only [Expression.view, Phrase.tree, alternativeTree, alternativeView, view₁, view₂]
  | some alternative =>
    obtain ⟨elseSign, body⟩ := alternative
    obtain ⟨brace', more', front'⟩ := body.tokens_eq_cons
    have tail₂ : n.tokens.tail = elseSign.token :: (body.tokens ++ rest) := tail₂
    have braced' : n.advance.peek.kind = .leftBrace := by
      rw [State.peek_eq (s := n.advance) (by rw [State.advance_tokens, tail₂, front']; rfl),
        brace'.kind_eq]
    obtain ⟨a, t, reads₃, tail₃, view₃⟩ := h₃ elseSign body rfl (s := n.advance.advance) nesting₃
      (State.braceDepth_advance_pos braced') (congrArg List.tail tail₂)
    refine ⟨.conditional word.token c b (some a), t,
      read _ _ (.inr ⟨?_, braced', a, reads₃, rfl⟩), tail₃, ?_⟩
    · rw [State.peek_eq tail₂, elseSign.kind_eq]
    · simp only [Expression.view, Phrase.tree, alternativeTree, alternativeView, view₁, view₂,
        view₃]

/-! ### Lists -/

/-- If every item is read, the list with its commas is. -/
theorem items_complete {α β γ : Type} {item : Parser α} (tokens : β → List Token) (value : α → γ)
    (seen : β → γ) {list : Separated β}
    (h : ∀ b ∈ list.items, ∀ {s : State} {rest : List Token}, s.tokens.tail = tokens b ++ rest →
      Stops .lowest rest →
        ∃ a t, item.Reads tolerated s a t ∧ t.tokens.tail = rest ∧ value a = seen b)
    {s : State} (closing : Sign .rightParen) {rest : List Token}
    (ahead : s.tokens.tail = list.tokens tokens ++ closing.token :: rest) :
    ∃ found t, (items item).Reads tolerated s found t ∧ t.tokens.tail = closing.token :: rest ∧
      found.map value = list.items.map seen := by
  induction list generalizing s with
  | last b =>
    obtain ⟨a, t, reads, tail, same⟩ :=
      h b (by simp [Separated.items]) ahead (stops_sign closing rest rfl (by decide))
    refine ⟨[a], t, reads_items.2 ⟨a, t, reads, .inl ⟨?_, rfl, rfl⟩⟩, tail, ?_⟩
    · rw [State.peek_eq tail, closing.kind_eq]
      decide
    · simp [Separated.items, same]
  | more b comma later ih =>
    rw [Separated.tokens, List.append_assoc] at ahead
    obtain ⟨a, m, reads, tail, same⟩ :=
      h b (by simp [Separated.items]) ahead (stops_sign comma _ rfl (by decide))
    obtain ⟨found, t, reads', tail', same'⟩ :=
      ih (fun b member => h b (by simp [Separated.items, member])) (s := m.advance)
        (congrArg List.tail tail)
    refine ⟨a :: found, t, reads_items.2 ⟨a, m, reads, .inr ⟨?_, found, reads', rfl⟩⟩, tail', ?_⟩
    · rw [State.peek_eq tail, comma.kind_eq]
    · simp [Separated.items, same, same']

/-- The tokens of a list do not begin with a closing parenthesis if no item does. -/
theorem separated_tokens_eq_cons {β : Type} (tokens : β → List Token) (first : β → Token)
    (h : ∀ b, ∃ more, tokens b = first b :: more) (list : Separated β) :
    ∃ b more, list.tokens tokens = first b :: more := by
  cases list with
  | last b =>
    obtain ⟨more, front⟩ := h b
    exact ⟨b, more, front⟩
  | more b comma later =>
    obtain ⟨more, front⟩ := h b
    exact ⟨b, _, by rw [Separated.tokens, front, List.cons_append]⟩

theorem parameter_complete (name : Sign .identifier) {s : State} {rest : List Token}
    (ahead : s.tokens.tail = name.tokens ++ rest) :
    parameter.Reads tolerated s (Sign.identifier name) s.advance := by
  have peek : s.peek = name.token := State.peek_eq ahead
  refine reads_parameter.2 ⟨by rw [peek, name.kind_eq], ?_, rfl⟩
  rw [peek, Sign.identifier]

theorem parameters_complete (parameters : Option (Separated (Sign .identifier))) {s : State}
    (closing : Sign .rightParen) {rest : List Token}
    (ahead : s.tokens.tail = parameterTokens parameters ++ closing.token :: rest) :
    ∃ t, (listed parameter).Reads tolerated s (parameterNames parameters) t ∧
      t.tokens.tail = rest := by
  cases parameters with
  | none =>
    refine ⟨s.advance, reads_listed.2 (.inl ⟨?_, rfl, rfl⟩), congrArg List.tail ahead⟩
    rw [State.peek_eq ahead, closing.kind_eq]
  | some list =>
    have ahead : s.tokens.tail = list.tokens Lexed.tokens ++ closing.token :: rest := ahead
    obtain ⟨found, t, reads, tail, same⟩ : ∃ found t, (items parameter).Reads tolerated s found t ∧
        t.tokens.tail = closing.token :: rest ∧ found.map id = list.items.map Sign.identifier :=
      items_complete Lexed.tokens id Sign.identifier
        (fun name _ s rest ahead _ =>
          ⟨Sign.identifier name, s.advance, parameter_complete name ahead,
            congrArg List.tail ahead, rfl⟩)
        closing ahead
    rw [List.map_id] at same
    subst same
    obtain ⟨name, more, front⟩ :=
      separated_tokens_eq_cons Lexed.tokens Lexed.token (fun name => ⟨[], rfl⟩) list
    rw [front, List.cons_append] at ahead
    refine ⟨t.advance, reads_listed.2 (.inr ⟨?_, t, reads, ?_, rfl⟩), congrArg List.tail tail⟩
    · rw [State.peek_eq ahead, Sign.kind_eq name]
      decide
    · rw [State.peek_eq tail, closing.kind_eq]

theorem begins_function {body : Passage gaps} (word : Sign .functionWord)
    (opening : Sign .leftParen) (parameters : Option (Separated (Sign .identifier)))
    (closing : Sign .rightParen) (h : body.Complete tolerated v) :
    (Phrase.function word opening parameters closing body).Begins tolerated v := by
  apply Phrase.begins_of_operand
  intro levels s rest nesting tokens _
  have ahead : s.tokens = word.token :: opening.token ::
      (parameterTokens parameters ++ closing.token :: (body.tokens ++ rest)) := by
    rw [tokens, Phrase.tokens]
    simp
  have nesting' : body.nesting ≤ levels := by
    simp only [Phrase.nesting] at nesting
    omega
  obtain ⟨m, reads₁, tail₁⟩ : ∃ m, (listed parameter).Reads tolerated s.advance
      (parameterNames parameters) m ∧ m.tokens.tail = body.tokens ++ rest :=
    parameters_complete parameters closing (congrArg (fun tokens => tokens.tail.tail) ahead)
  obtain ⟨brace, more, front⟩ := body.tokens_eq_cons
  have braced : m.peek.kind = .leftBrace := by
    rw [State.peek_eq (by rw [tail₁, front]; rfl), brace.kind_eq]
  obtain ⟨b, t, reads₂, tail₂, view⟩ :=
    h (s := m.advance) nesting' (State.braceDepth_advance_pos braced) tail₁
  refine ⟨.function word.token (parameterNames parameters) b, t, ?_, tail₂, ?_⟩
  · rw [reads_operand, State.current_eq ahead, word.kind_eq]
    refine (reads_function _).2 ⟨?_, _, m, reads₁, braced, b, reads₂, rfl⟩
    rw [State.peek_eq (by rw [ahead]; rfl), opening.kind_eq]
  · simp only [Expression.view, Phrase.tree, view]

/-! ### Operators -/

theorem begins_binary {left right : Phrase gaps} (operator : Lexed Kind.IsBinary)
    (below : .ofKind operator.token.kind ≤ left.strength)
    (above : .ofKind operator.token.kind < right.strength) (h₁ : left.Begins tolerated v)
    (h₂ : right.Complete tolerated v) : (Phrase.binary left operator right).Begins tolerated v := by
  intro levels bound s rest nesting below' bounded tokens stops
  have weak := operator.kind.lt_unary
  -- the loop does not stop at the operator, which binds tighter than the bound
  have tighter : bound < .ofKind operator.token.kind := by
    apply bounded.resolve_right
    intro strong
    exact Nat.not_le.2 weak strong
  simp only [Phrase.nesting] at nesting
  have nesting₁ : left.nesting ≤ levels + 1 := by omega
  have nesting₂ : right.nesting ≤ levels := by omega
  obtain ⟨l, m, view₁, tail₁, continues⟩ := h₁ (s := s) nesting₁ below'
    (.inl (Nat.lt_of_lt_of_le tighter below))
    (by rw [tokens, Phrase.tokens, List.append_assoc]; rfl)
    (stops_cons below fun kind => by simpa [kind, Kind.IsBinary] using operator.kind)
  have peek : m.peek = operator.token := State.peek_eq tail₁
  obtain ⟨r, t, reads, tail₂, view₂⟩ := h₂ (s := m.advance.advance) nesting₂ (Nat.le_of_lt weak)
    (.inl above) (congrArg List.tail tail₁) stops
  -- from the end of the left operand the loop goes on with the operation as its operand
  refine ⟨.binary operator.token l operator.token.literal r, t, ?_, tail₂, fun w u folded => ?_⟩
  · simp only [Expression.view, Phrase.tree, view₁, view₂]
  · refine continues w u ((reads_fold _).2 (.inr ⟨by rwa [peek], _, t, ?_, folded⟩))
    refine (reads_operation _).2 (.inr ⟨?_, r, ?_, ?_⟩)
    · rw [State.advance_current, peek]
      exact (Kind.isBinary_iff.1 operator.kind).2
    · rwa [State.advance_current, peek]
    · rw [State.advance_current, peek]

theorem arguments_complete {arguments : Option (Separated (Phrase gaps))} {levels : Nat}
    (nesting : argumentNesting arguments ≤ levels)
    (h : ∀ list, arguments = some list → ∀ argument ∈ list.items, argument.Complete tolerated v)
    {s : State} (closing : Sign .rightParen) {rest : List Token}
    (ahead : s.tokens.tail = argumentTokens arguments ++ closing.token :: rest) :
    ∃ found t, (listed (argument (expressionWithin levels))).Reads tolerated s found t ∧
      t.tokens.tail = rest ∧
      argumentViews v found = argumentViews v (argumentTrees arguments) := by
  cases arguments with
  | none =>
    refine ⟨[], s.advance, reads_listed.2 (.inl ⟨?_, rfl, rfl⟩), congrArg List.tail ahead, rfl⟩
    rw [State.peek_eq ahead, closing.kind_eq]
  | some list =>
    have within := (separatedNesting_le_iff list).1 nesting
    simp only [argumentTokens, separatedTokens_eq] at ahead
    obtain ⟨found, t, reads, tail, same⟩ :
        ∃ found t, (items (argument (expressionWithin levels))).Reads tolerated s found t ∧
          t.tokens.tail = closing.token :: rest ∧
          found.map (Expression.view v) = list.items.map fun phrase => phrase.tree.view v := by
      refine items_complete Phrase.tokens _ _ (fun phrase member s rest ahead stops => ?_) closing
        ahead
      obtain ⟨e, t, reads, tail, view⟩ :=
        (h list rfl phrase member).lowest (s := s.advance) (within phrase member) ahead stops
      exact ⟨e, t, (reads_argument _).2 reads, tail, view⟩
    -- the list is not taken for an empty one: no expression begins with a parenthesis that closes
    obtain ⟨phrase, more, front⟩ := separated_tokens_eq_cons Phrase.tokens Phrase.first
      Phrase.tokens_eq_cons list
    rw [front, List.cons_append] at ahead
    refine ⟨found, t.advance, reads_listed.2 (.inr ⟨?_, t, reads, ?_, rfl⟩),
      congrArg List.tail tail, ?_⟩
    · rw [State.peek_eq ahead]
      exact phrase.starts.ne_rightParen
    · rw [State.peek_eq tail, closing.kind_eq]
    · rw [argumentTrees, separatedTrees_eq, argumentViews_eq, argumentViews_eq, same, List.map_map]
      rfl

theorem begins_call {callee : Phrase gaps} (opening : Sign .leftParen)
    {arguments : Option (Separated (Phrase gaps))} (closing : Sign .rightParen)
    (tight : .call ≤ callee.strength) (h₁ : callee.Begins tolerated v)
    (h₂ : ∀ list, arguments = some list → ∀ argument ∈ list.items, argument.Complete tolerated v) :
    (Phrase.call callee opening arguments closing).Begins tolerated v := by
  intro levels bound s rest nesting below _ tokens stops
  have tighter : bound < .call := Nat.lt_of_le_of_lt below (by decide)
  simp only [Phrase.nesting] at nesting
  have nesting₁ : callee.nesting ≤ levels + 1 := by omega
  have nesting₂ : argumentNesting arguments ≤ levels := by omega
  have ahead : s.tokens =
      callee.tokens ++ opening.token :: (argumentTokens arguments ++ closing.token :: rest) := by
    simp [tokens, Phrase.tokens]
  obtain ⟨l, m, view₁, tail₁, continues⟩ := h₁ nesting₁ below
    (.inl (Nat.lt_of_lt_of_le tighter tight)) ahead
    (stops_cons (Nat.le_trans (Precedence.le_call _) tight) (by rw [opening.kind_eq]; decide))
  have peek : m.peek = opening.token := State.peek_eq tail₁
  obtain ⟨found, t, reads, tail₂, view₂⟩ := arguments_complete nesting₂ h₂ (s := m.advance) closing
    (congrArg List.tail tail₁)
  refine ⟨.call opening.token l found, t, ?_, tail₂, fun w u folded => ?_⟩
  · simp only [Expression.view, Phrase.tree, view₁, view₂]
  · refine continues w u ((reads_fold _).2 (.inr ⟨?_, _, t, ?_, folded⟩))
    · rw [peek, opening.kind_eq]
      exact tighter
    · refine (reads_operation _).2 (.inl ⟨?_, found, reads, ?_⟩)
      · rw [State.advance_current, peek, opening.kind_eq]
      · rw [State.advance_current, peek]

/-! ### Statements and blocks -/

theorem Kind.StartsClause.ne {kind : Kind} (h : kind.StartsClause) :
    kind ≠ .rightBrace ∧ kind ≠ .endOfInput := by
  constructor <;> rintro rfl <;> simp [StartsClause, Starts] at h

/-- A semicolon that has been written is skipped, and nothing else is. -/
theorem skip_semicolon {m : State} {semicolon : Option (Sign .semicolon)} {rest : List Token}
    (tail : m.tokens.tail = (semicolon.map Lexed.token).toList ++ rest)
    (ends : semicolon = none → Ends rest) :
    (if m.peek.kind = .semicolon then m.advance else m).tokens.tail = rest := by
  cases semicolon with
  | none =>
    have tail : m.tokens.tail = rest := tail
    rw [if_neg ?_]
    · exact tail
    · -- what follows begins a statement or ends the block, so it is no semicolon
      cases rest with
      | nil => simp [State.peek, tail, Token.endOfInput]
      | cons token more =>
        rw [State.peek_eq tail]
        exact (ends rfl).2 token rfl
  | some sign =>
    have tail : m.tokens.tail = sign.token :: rest := tail
    rw [if_pos (by rw [State.peek_eq tail, sign.kind_eq])]
    exact congrArg List.tail tail

/-- An expression may end before the semicolon of its statement, or where the statement ends. -/
theorem stops_semicolon {semicolon : Option (Sign .semicolon)} {rest : List Token}
    (ends : semicolon = none → Ends rest) :
    Stops .lowest ((semicolon.map Lexed.token).toList ++ rest) := by
  cases semicolon with
  | none => exact (ends rfl).1
  | some sign => exact stops_sign sign rest rfl (by decide)

theorem clause_complete {lead : Lead} {value : Phrase gaps} {semicolon : Option (Sign .semicolon)}
    (h : value.Complete tolerated v) :
    (⟨lead, value, semicolon⟩ : Clause gaps).Complete tolerated v := by
  intro levels s rest nesting tokens ends
  have stops := stops_semicolon ends
  rw [Clause.tokens, List.append_assoc, List.append_assoc] at tokens
  -- the events at both ends of the statement do not matter
  suffices read : ∃ w t, (statementAt (expressionWithin levels) s.current).Reads tolerated
      (s.note (.began s.current)) w t ∧ t.tokens.tail = rest ∧
        w.view v = (lead.statement value.first value.tree).view v by
    obtain ⟨w, t, reads, tail, view⟩ := read
    exact ⟨w, t.note .completed, (reads_statement _).2 ⟨t, reads, rfl⟩, tail, view⟩
  cases lead with
  | binding word name assign =>
    have ahead : s.tokens = word.token :: name.token :: assign.token ::
      (value.tokens ++ ((semicolon.map Lexed.token).toList ++ rest)) := tokens
    obtain ⟨e, m, reads, tail, view⟩ := h.lowest
      (s := (s.note (.began s.current)).advance.advance.advance) nesting
      (congrArg (fun tokens => tokens.tail.tail.tail) ahead) stops
    have second : s.peek = name.token := State.peek_eq (congrArg List.tail ahead)
    have third : s.advance.peek = assign.token :=
      State.peek_eq (congrArg (fun tokens => tokens.tail.tail) ahead)
    have current : s.current = word.token := State.current_eq ahead
    rw [current] at reads ⊢
    refine ⟨_, _, (reads_statementAt_binding _ word.kind_eq).2
      ⟨?_, ?_, e, m, reads, rfl, rfl⟩, skip_semicolon tail ends, ?_⟩
    · rw [State.note_peek, second, name.kind_eq]
    · exact third ▸ assign.kind_eq
    · simp only [State.note_peek, second, Lead.statement, Statement.view, view, Sign.identifier]
  | result word =>
    have ahead : s.tokens = word.token ::
      (value.tokens ++ ((semicolon.map Lexed.token).toList ++ rest)) := tokens
    obtain ⟨e, m, reads, tail, view⟩ := h.lowest (s := (s.note (.began s.current)).advance) nesting
      (congrArg List.tail ahead) stops
    have current : s.current = word.token := State.current_eq ahead
    rw [current] at reads ⊢
    refine ⟨_, _, (reads_statementAt_result _ word.kind_eq).2 ⟨e, m, reads, rfl, rfl⟩,
      skip_semicolon tail ends, ?_⟩
    simp only [Lead.statement, Statement.view, view]
  | bare =>
    have ahead : s.tokens =
      value.tokens ++ ((semicolon.map Lexed.token).toList ++ rest) := tokens
    obtain ⟨e, m, reads, tail, view⟩ :=
      h.lowest (s := s.note (.began s.current)) nesting ahead stops
    obtain ⟨more, front⟩ := value.tokens_eq_cons
    have current : s.current = value.first :=
      State.current_eq (by rw [ahead, front, List.cons_append])
    rw [current] at reads ⊢
    refine ⟨_, _, (reads_statementAt_expression _ value.starts.ne_letWord
      value.starts.ne_returnWord).2 ⟨e, m, reads, rfl, rfl⟩, skip_semicolon tail ends, ?_⟩
    simp only [Lead.statement, Statement.view, view]

theorem clauses_complete {clauses : List (Clause gaps)}
    (h : ∀ clause ∈ clauses, clause.Complete tolerated v) (proper : ProperClauses clauses)
    {levels depth : Nat} (nesting : clauseNesting clauses ≤ levels) {s : State}
    (closing : Sign .rightBrace) {rest : List Token}
    (tokens : s.tokens = clauseTokens clauses ++ closing.token :: rest) :
    ∃ ws t, (statements (expressionWithin levels) depth).Reads tolerated s ws t ∧
      t.tokens.tail = rest ∧ statementViews v ws = statementViews v (clauseTrees clauses) := by
  induction clauses generalizing s with
  | nil =>
    have tokens : s.tokens = closing.token :: rest := tokens
    refine ⟨[], s, reads_statements_nil _ ?_, by rw [tokens]; rfl, rfl⟩
    rw [State.current_eq tokens, closing.kind_eq]
  | cons clause clauses ih =>
    obtain ⟨-, between, proper⟩ := proper
    obtain ⟨nesting₁, nesting₂⟩ := Nat.max_le.1 nesting
    rw [clauseTokens, List.append_assoc] at tokens
    obtain ⟨w, m, reads, tail, view⟩ := h clause List.mem_cons_self nesting₁ tokens
      fun none => ends_clauseTokens (between none) (ends_brace closing rest)
    obtain ⟨ws, t, reads', tail', view'⟩ :=
      ih (fun clause member => h clause (List.mem_cons_of_mem _ member)) proper nesting₂
        (s := m.advance) tail
    obtain ⟨token, more, front, starts⟩ := clause.tokens_eq_cons
    have current : s.current = token := State.current_eq (by rw [tokens, front, List.cons_append])
    refine ⟨w :: ws, t, reads_statements_cons _ ?_ ?_ reads reads', tail', ?_⟩
    · rw [current]
      exact starts.ne.1
    · rw [current]
      exact starts.ne.2
    · simp only [statementViews, clauseTrees, view, view']

theorem block_complete {clauses : List (Clause gaps)} (opening : Sign .leftBrace)
    (closing : Sign .rightBrace) (h : ∀ clause ∈ clauses, clause.Complete tolerated v)
    (proper : ProperClauses clauses) :
    (Passage.block opening clauses closing).Complete tolerated v := by
  intro levels s rest nesting _ tokens
  have ahead : s.tokens = opening.token :: (clauseTokens clauses ++ closing.token :: rest) := by
    rw [tokens, Passage.tokens]
    simp
  obtain ⟨ws, t, reads, tail, view⟩ :
      ∃ ws t, (statements (expressionWithin levels) s.braceDepth).Reads tolerated s.advance ws t ∧
        t.tokens.tail = rest ∧ statementViews v ws = statementViews v (clauseTrees clauses) :=
    clauses_complete h proper nesting closing (congrArg List.tail ahead)
  refine ⟨⟨opening.token, ws⟩, t, (reads_block _).2 ⟨ws, reads, ?_⟩, tail, ?_⟩
  · rw [State.current_eq ahead]
  · simp only [Block.view, Passage.tree, view]

theorem gap_complete (fills : Fills gaps tolerated v) (opening : Sign .leftBrace)
    (content : List Token) (closing : Sign .rightBrace)
    (permitted : gaps opening.token content closing.token) :
    (Passage.gap opening content closing permitted).Complete tolerated v := by
  intro levels s rest _ counted tokens
  have ahead : s.tokens = opening.token :: (content ++ closing.token :: rest) := by
    rw [tokens, Passage.tokens]
    simp
  obtain ⟨⟨token, ws⟩, t, reads, tail, same⟩ := fills.reads permitted levels counted ahead
  refine ⟨⟨token, ws⟩, t, reads, tail, ?_⟩
  obtain rfl : token = opening.token := same
  simp [Block.view, Passage.tree, fills.hidden permitted]

/-! ### By induction on what is written -/

/-- The loop over operators comes to the end of every proper phrase, and all proper passages and
clauses are read. -/
theorem hereditary_complete (fills : Fills gaps tolerated v) :
    Hereditary (fun phrase : Phrase gaps => phrase.Proper → phrase.Begins tolerated v)
      (fun passage => passage.Proper → passage.Complete tolerated v)
      (fun clause => clause.Proper → clause.Complete tolerated v) where
  name word _ := begins_name word
  numeral _ := begins_numeral
  truth word _ := begins_truth word
  group opening closing h proper := begins_group opening closing (h proper).complete
  unary := by
    rintro operand operator h ⟨strength, proper⟩
    exact begins_unary operator strength (h proper).complete
  binary := by
    rintro left right operator h₁ h₂ ⟨below, above, proper₁, proper₂⟩
    exact begins_binary operator below above (h₁ proper₁) (h₂ proper₂).complete
  conditional := by
    rintro condition consequence alternative word opening closing h₁ h₂ h₃
      ⟨proper₁, proper₂, proper₃⟩
    refine begins_conditional word opening closing (h₁ proper₁).complete (h₂ proper₂) ?_
    rintro word body rfl
    exact h₃ word body rfl proper₃
  function word opening parameters closing h proper :=
    begins_function word opening parameters closing (h proper)
  call := by
    rintro callee arguments opening closing h₁ h₂ ⟨tight, proper₁, proper₂⟩
    refine begins_call opening closing tight (h₁ proper₁) fun list same argument member => ?_
    exact (h₂ list same argument member (proper₂.proper list same argument member)).complete
  block opening closing h proper :=
    block_complete opening closing
      (fun clause member => h clause member (ProperClauses.proper proper clause member)) proper
  gap opening content closing permitted _ :=
    gap_complete fills opening content closing permitted
  clause _ _ h proper := clause_complete (h proper).complete

/-! ### Whole programs -/

theorem State.readsAll_complete {clauses : List (Clause gaps)}
    (h : ∀ clause ∈ clauses, clause.Complete tolerated v) (proper : ProperClauses clauses)
    {limit : Nat} (nesting : clauseNesting clauses ≤ limit) {s : State} (top : s.nesting = 0)
    (tokens : s.tokens = clauseTokens clauses) :
    ∃ ws t, ReadsAll tolerated limit s ws t ∧
      statementViews v ws = statementViews v (clauseTrees clauses) := by
  induction clauses generalizing s with
  | nil => exact ⟨[], s, readsAll_nil (State.current_of_nil tokens), rfl⟩
  | cons clause clauses ih =>
    obtain ⟨-, between, proper⟩ := proper
    obtain ⟨nesting₁, nesting₂⟩ := Nat.max_le.1 nesting
    obtain ⟨w, m, reads, tail, view⟩ := h clause List.mem_cons_self nesting₁ tokens fun none => by
      simpa using ends_clauseTokens (between none) ends_nil
    obtain ⟨ws, t, reads', view'⟩ :=
      ih (fun clause member => h clause (List.mem_cons_of_mem _ member)) proper nesting₂
        (s := m.advance) (reads.reaches.nesting_eq.trans top) tail
    obtain ⟨token, more, front, starts⟩ := clause.tokens_eq_cons
    have current : s.current = token :=
      State.current_eq (by rw [tokens, clauseTokens, front, List.cons_append])
    refine ⟨w :: ws, t, readsAll_cons top ?_ reads reads', ?_⟩
    · rw [current]
      exact starts.ne.2
    · simp only [statementViews, clauseTrees, view, view']

/-- The tokens of a proper document within the limit are parsed with tolerated faults only, and up
to what stands in the gaps the program is the tree of the document. -/
theorem Parsed.ofTokens_complete (fills : Fills gaps tolerated v) {document : Document gaps}
    (proper : document.Proper) {limit : Nat} (nesting : document.nesting ≤ limit)
    (finish : Location) :
    (∀ fault ∈ (ofTokens limit document.tokens finish).faults, tolerated fault) ∧
      (ofTokens limit document.tokens finish).program.view v = document.tree.view v := by
  obtain ⟨ws, t, ⟨run, found, faults, all⟩, view⟩ :=
    State.readsAll_complete (fun clause member => (hereditary_complete fills).each clause
        (ProperClauses.proper proper clause member)) proper nesting
      (s := .ofTokens document.tokens finish) rfl rfl
  have parsed : ofTokens limit document.tokens finish = ⟨⟨ws⟩, t.history⟩ := by
    rw [ofTokens, State.program, run]
  rw [parsed]
  refine ⟨?_, congrArg Program.mk view⟩
  intro fault member
  rw [show Parsed.faults _ = t.faults from rfl, faults] at member
  exact all fault (by simpa [State.faults, State.history, State.ofTokens] using member)

end MonkeyLang
