import MonkeyLang.Parser.Program
import MonkeyLang.Proofs.Completeness

/-!
# The limit of nesting is exact

A proper phrase is read only if the levels that are left are at least its nesting.  Together with
the completeness of the parser this decides which proper documents are parsed without fault: those
whose nesting does not exceed the limit (`Parsed.faults_ofTokens_document`), and then the program
is the tree of the document.

The proof follows a clean run through what is written.  Such a run comes to the end of every part,
and it fails at an expression for which no level is left, so every level that the nesting counts has
been there.
-/

namespace MonkeyLang

open MonkeyLang.Parser

/-! ### What is to be shown -/

/-- If the loop over operators, started where the phrase begins, goes through without fault, then it
has come to the end of the phrase and had levels enough. -/
def Phrase.Entered (phrase : Phrase noGaps) : Prop :=
  ∀ ⦃levels : Nat⦄ ⦃bound : Precedence⦄ ⦃s t : State⦄ ⦃rest : List Token⦄ ⦃w : Expression⦄,
    bound ≤ .unary → bound < phrase.strength ∨ .unary ≤ phrase.strength →
    s.tokens = phrase.tokens ++ rest → Stops phrase.strength rest →
    (operators (expressionWithin levels) bound).Reads (fun _ => False) s w t →
      phrase.nesting ≤ levels + 1 ∧ ∃ e m, m.tokens.tail = rest ∧
        (fold (expressionWithin levels) bound e).Reads (fun _ => False) m w t

/-- If the phrase is read without fault where nothing follows that binds tighter than the bound,
then it is read to its end and there were levels enough. -/
def Phrase.Passed (phrase : Phrase noGaps) : Prop :=
  ∀ ⦃levels : Nat⦄ ⦃bound : Precedence⦄ ⦃s t : State⦄ ⦃rest : List Token⦄ ⦃e : Expression⦄,
    bound ≤ .unary → bound < phrase.strength ∨ .unary ≤ phrase.strength →
    s.tokens = phrase.tokens ++ rest → Stops bound rest →
    (expressionWithin levels bound).Reads (fun _ => False) s e t →
      phrase.nesting ≤ levels ∧ t.tokens.tail = rest

/-- If the passage is read without fault, it is read to its end and there were levels enough. -/
def Passage.Passed (passage : Passage noGaps) : Prop :=
  ∀ ⦃levels : Nat⦄ ⦃s t : State⦄ ⦃rest : List Token⦄ ⦃b : Block⦄,
    s.tokens = passage.tokens ++ rest →
    (Parser.block (expressionWithin levels)).Reads (fun _ => False) s b t →
      passage.nesting ≤ levels ∧ t.tokens.tail = rest

/-- If the clause is read without fault, it is read to its end and there were levels enough. -/
def Clause.Passed (clause : Clause noGaps) : Prop :=
  ∀ ⦃levels : Nat⦄ ⦃s t : State⦄ ⦃rest : List Token⦄ ⦃w : Statement⦄,
    s.tokens = clause.tokens ++ rest → (clause.semicolon = none → Ends rest) →
    (statement (expressionWithin levels)).Reads (fun _ => False) s w t →
      clause.nesting ≤ levels ∧ t.tokens.tail = rest

/-- A run has one result. -/
theorem Parser.Reads.unique {α : Type} {tolerated : Fault → Prop} {parser : Parser α}
    {s t t' : State} {x x' : α} (h : parser.Reads tolerated s x t)
    (h' : parser.Reads tolerated s x' t') : x = x' ∧ t = t' := by
  have same := h.1.symm.trans h'.1
  simpa using same

theorem Phrase.Entered.passed {phrase : Phrase noGaps} (h : phrase.Entered) : phrase.Passed := by
  intro levels bound s t rest w below bounded tokens stops read
  cases levels with
  | zero =>
    -- no expression is opened where no level is left
    exact (not_reads_expressionWithin_zero read).elim
  | succ levels =>
    obtain ⟨u, inner, rfl⟩ := reads_expressionWithin.1 read
    have holds : bound ≤ phrase.strength := by
      simp only [Precedence.lt_iff_rank, Precedence.le_iff_rank] at *
      omega
    obtain ⟨nesting, e, m, tail, folded⟩ := h (s := { s with nesting := s.nesting + 1 }) below
      bounded tokens (stops.mono holds) inner
    have stopped : ¬bound < .ofKind m.peek.kind :=
      Nat.not_lt.2 (State.peek_of_stops tail stops).1
    obtain ⟨-, -, rfl⟩ | ⟨tighter, -⟩ := (reads_fold _).1 folded
    · exact ⟨nesting, tail⟩
    · exact absurd tighter stopped

theorem Phrase.Passed.lowest {phrase : Phrase noGaps} (h : phrase.Passed) {levels : Nat}
    {s t : State} {rest : List Token} {e : Expression} (tokens : s.tokens = phrase.tokens ++ rest)
    (stops : Stops .lowest rest)
    (read : (expressionWithin levels .lowest).Reads (fun _ => False) s e t) :
    phrase.nesting ≤ levels ∧ t.tokens.tail = rest :=
  h (by decide) (.inl phrase.lowest_lt_strength) tokens stops read

/-! ### Operands -/

theorem Phrase.entered_of_operand {phrase : Phrase noGaps}
    (h : ∀ ⦃levels : Nat⦄ ⦃s m : State⦄ ⦃rest : List Token⦄ ⦃e : Expression⦄,
      s.tokens = phrase.tokens ++ rest → Stops phrase.strength rest →
      (operand (expressionWithin levels)).Reads (fun _ => False) s e m →
        phrase.nesting ≤ levels + 1 ∧ m.tokens.tail = rest) : phrase.Entered := by
  intro levels bound s t rest w _ _ tokens stops read
  obtain ⟨e, m, first, folded⟩ := (reads_operators _).1 read
  obtain ⟨nesting, tail⟩ := h tokens stops first
  exact ⟨nesting, e, m, tail, folded⟩

theorem entered_name (word : Sign .identifier) : (Phrase.name word : Phrase noGaps).Entered := by
  apply Phrase.entered_of_operand
  intro levels s m rest e tokens _ read
  rw [reads_operand, State.current_eq tokens, word.kind_eq] at read
  obtain ⟨-, rfl⟩ := read
  exact ⟨Nat.le_add_left _ _, congrArg List.tail tokens⟩

theorem entered_numeral (digits : Sign .integer) :
    (Phrase.numeral digits : Phrase noGaps).Entered := by
  apply Phrase.entered_of_operand
  intro levels s m rest e tokens _ read
  rw [reads_operand, State.current_eq tokens, digits.kind_eq] at read
  obtain ⟨-, -, rfl⟩ := reads_integer.1 read
  exact ⟨Nat.le_add_left _ _, congrArg List.tail tokens⟩

theorem entered_truth (word : Lexed Kind.IsTruth) :
    (Phrase.truth word : Phrase noGaps).Entered := by
  apply Phrase.entered_of_operand
  intro levels s m rest e tokens _ read
  have same : s = m := by
    rw [reads_operand, State.current_eq tokens] at read
    rcases Kind.isTruth_iff.1 word.kind with kind | kind
    · rw [kind] at read
      exact read.2
    · rw [kind] at read
      exact read.2
  exact ⟨Nat.le_add_left _ _, same ▸ congrArg List.tail tokens⟩

theorem entered_group {inner : Phrase noGaps} (opening : Sign .leftParen)
    (closing : Sign .rightParen) (h : inner.Passed) :
    (Phrase.group opening inner closing).Entered := by
  apply Phrase.entered_of_operand
  intro levels s t rest e tokens _ read
  have ahead : s.tokens = opening.token :: (inner.tokens ++ closing.token :: rest) := by
    rw [tokens, Phrase.tokens, List.cons_append, List.append_assoc]
    rfl
  rw [reads_operand, State.current_eq ahead, opening.kind_eq] at read
  obtain ⟨m, inside, -, rfl⟩ := (reads_group _).1 read
  obtain ⟨nesting, tail⟩ := h.lowest (s := s.advance) (congrArg List.tail ahead)
    (stops_sign closing rest rfl (by decide)) inside
  refine ⟨?_, congrArg List.tail tail⟩
  simp only [Phrase.nesting]
  omega

theorem entered_unary {inner : Phrase noGaps} (operator : Lexed Kind.IsUnary)
    (strength : .unary ≤ inner.strength) (h : inner.Passed) :
    (Phrase.unary operator inner).Entered := by
  apply Phrase.entered_of_operand
  intro levels s t rest e tokens stops read
  have ahead : s.tokens = operator.token :: (inner.tokens ++ rest) := tokens
  have read :
      (Parser.unary (expressionWithin levels) operator.token).Reads (fun _ => False) s e t := by
    rw [reads_operand, State.current_eq ahead] at read
    rcases Kind.isUnary_iff.1 operator.kind with kind | kind
    · rwa [kind] at read
    · rwa [kind] at read
  obtain ⟨r, read, -⟩ := (reads_unary _).1 read
  obtain ⟨nesting, tail⟩ := h (s := s.advance) (Nat.le_refl _) (.inr strength)
    (congrArg List.tail ahead) stops read
  refine ⟨?_, tail⟩
  simp only [Phrase.nesting]
  omega

theorem entered_conditional {condition : Phrase noGaps} {consequence : Passage noGaps}
    {alternative : Option (Sign .elseWord × Passage noGaps)} (word : Sign .ifWord)
    (opening : Sign .leftParen) (closing : Sign .rightParen) (h₁ : condition.Passed)
    (h₂ : consequence.Passed)
    (h₃ : ∀ word body, alternative = some (word, body) → body.Passed) :
    (Phrase.conditional word opening condition closing consequence alternative).Entered := by
  apply Phrase.entered_of_operand
  intro levels s t rest e tokens stops read
  have ahead : s.tokens = word.token :: opening.token :: (condition.tokens ++ closing.token ::
      (consequence.tokens ++ (alternativeTokens alternative ++ rest))) := by
    rw [tokens, Phrase.tokens]
    simp
  rw [reads_operand, State.current_eq ahead, word.kind_eq] at read
  obtain ⟨-, c, m, read₁, -, -, b, n, read₂, last⟩ := (reads_conditional _).1 read
  obtain ⟨nesting₁, tail₁⟩ := h₁.lowest (s := s.advance.advance)
    (congrArg (fun tokens => tokens.tail.tail) ahead) (stops_sign closing _ rfl (by decide)) read₁
  obtain ⟨nesting₂, tail₂⟩ := h₂ (s := m.advance.advance) (congrArg List.tail tail₁) read₂
  cases alternative with
  | none =>
    have tail₂ : n.tokens.tail = rest := tail₂
    obtain ⟨-, -, rfl⟩ | ⟨kind, -⟩ := last
    · refine ⟨?_, tail₂⟩
      simp only [Phrase.nesting, alternativeNesting]
      omega
    · exact absurd kind (State.peek_of_stops tail₂ stops).2
  | some alternative =>
    obtain ⟨elseSign, body⟩ := alternative
    have tail₂ : n.tokens.tail = elseSign.token :: (body.tokens ++ rest) := tail₂
    obtain ⟨kind, -⟩ | ⟨-, -, a, read₃, -⟩ := last
    · exact absurd (by rw [State.peek_eq tail₂, elseSign.kind_eq]) kind
    · obtain ⟨nesting₃, tail₃⟩ :=
        h₃ elseSign body rfl (s := n.advance.advance) (congrArg List.tail tail₂) read₃
      refine ⟨?_, tail₃⟩
      simp only [Phrase.nesting, alternativeNesting]
      omega

theorem entered_function {body : Passage noGaps} (word : Sign .functionWord)
    (opening : Sign .leftParen) (parameters : Option (Separated (Sign .identifier)))
    (closing : Sign .rightParen) (h : body.Passed) :
    (Phrase.function word opening parameters closing body).Entered := by
  apply Phrase.entered_of_operand
  intro levels s t rest e tokens _ read
  have ahead : s.tokens = word.token :: opening.token ::
      (parameterTokens parameters ++ closing.token :: (body.tokens ++ rest)) := by
    rw [tokens, Phrase.tokens]
    simp
  rw [reads_operand, State.current_eq ahead, word.kind_eq] at read
  obtain ⟨-, names, m, read₁, -, b, read₂, -⟩ := (reads_function _).1 read
  -- the parameters are known to be read, and there is only one way to read them
  obtain ⟨m', read₁', tail₁⟩ := parameters_complete parameters (s := s.advance) closing
    (congrArg (fun tokens => tokens.tail.tail) ahead)
  obtain ⟨-, rfl⟩ := read₁.unique read₁'
  obtain ⟨nesting, tail₂⟩ := h (s := m.advance) tail₁ read₂
  refine ⟨?_, tail₂⟩
  simp only [Phrase.nesting]
  omega

/-! ### Operators -/

theorem entered_binary {left right : Phrase noGaps} (operator : Lexed Kind.IsBinary)
    (below : .ofKind operator.token.kind ≤ left.strength)
    (above : .ofKind operator.token.kind < right.strength) (h₁ : left.Entered)
    (h₂ : right.Passed) : (Phrase.binary left operator right).Entered := by
  intro levels bound s t rest w below' bounded tokens stops read
  have weak := operator.kind.lt_unary
  have tighter : bound < .ofKind operator.token.kind := by
    apply bounded.resolve_right
    intro strong
    exact Nat.not_le.2 weak strong
  have ahead : s.tokens = left.tokens ++ operator.token :: (right.tokens ++ rest) := by
    rw [tokens, Phrase.tokens, List.append_assoc]
    rfl
  obtain ⟨nesting₁, l, m, tail₁, folded⟩ := h₁ below' (.inl (Nat.lt_of_lt_of_le tighter below))
    ahead (stops_cons below fun kind => by simpa [kind, Kind.IsBinary] using operator.kind) read
  have peek : m.peek = operator.token := State.peek_eq tail₁
  -- the loop stands before the operator, and it has to take it
  obtain ⟨weaker, -⟩ | ⟨-, whole, n, step, folded⟩ := (reads_fold _).1 folded
  · exact absurd tighter (by rwa [peek] at weaker)
  obtain ⟨opened, -⟩ | ⟨-, r, read, -⟩ := (reads_operation _).1 step
  · rw [State.advance_current, peek] at opened
    exact absurd opened (Kind.isBinary_iff.1 operator.kind).2
  rw [State.advance_current, peek] at read
  obtain ⟨nesting₂, tail₂⟩ := h₂ (s := m.advance.advance) (Nat.le_of_lt weak) (.inl above)
    (congrArg List.tail tail₁) stops read
  refine ⟨?_, whole, n, tail₂, folded⟩
  simp only [Phrase.nesting]
  omega

/-- Arguments that are read without fault are read to their end, with levels enough for each. -/
theorem items_passed {levels : Nat} {list : Separated (Phrase noGaps)}
    (h : ∀ argument ∈ list.items, argument.Passed) {s t : State} (closing : Sign .rightParen)
    {rest : List Token} {found : List Expression}
    (ahead : s.tokens.tail = list.tokens Phrase.tokens ++ closing.token :: rest)
    (read : (items (argument (expressionWithin levels))).Reads (fun _ => False) s found t) :
    (∀ argument ∈ list.items, argument.nesting ≤ levels) ∧
      t.tokens.tail = closing.token :: rest := by
  induction list generalizing s found with
  | last phrase =>
    obtain ⟨e, m, first, last⟩ := reads_items.1 read
    obtain ⟨nesting, tail⟩ := (h phrase (by simp [Separated.items])).lowest (s := s.advance) ahead
      (stops_sign closing rest rfl (by decide)) ((reads_argument _).1 first)
    obtain ⟨-, -, rfl⟩ | ⟨comma, -⟩ := last
    · exact ⟨by simpa [Separated.items] using nesting, tail⟩
    · rw [State.peek_eq tail, closing.kind_eq] at comma
      exact absurd comma (by decide)
  | more phrase comma later ih =>
    obtain ⟨e, m, first, last⟩ := reads_items.1 read
    rw [Separated.tokens, List.append_assoc] at ahead
    obtain ⟨nesting, tail⟩ := (h phrase (by simp [Separated.items])).lowest (s := s.advance) ahead
      (stops_sign comma _ rfl (by decide)) ((reads_argument _).1 first)
    obtain ⟨kind, -⟩ | ⟨-, others, rest, -⟩ := last
    · exact absurd (by rw [State.peek_eq tail, comma.kind_eq]) kind
    · obtain ⟨nesting', tail'⟩ := ih (fun b member => h b (by simp [Separated.items, member]))
        (s := m.advance) (congrArg List.tail tail) rest
      exact ⟨by simpa [Separated.items] using ⟨nesting, nesting'⟩, tail'⟩

theorem arguments_passed {arguments : Option (Separated (Phrase noGaps))} {levels : Nat}
    (h : ∀ list, arguments = some list → ∀ argument ∈ list.items, argument.Passed)
    {s t : State} (closing : Sign .rightParen) {rest : List Token} {found : List Expression}
    (ahead : s.tokens.tail = argumentTokens arguments ++ closing.token :: rest)
    (read : (listed (argument (expressionWithin levels))).Reads (fun _ => False) s found t) :
    argumentNesting arguments ≤ levels ∧ t.tokens.tail = rest := by
  cases arguments with
  | none =>
    obtain ⟨-, -, rfl⟩ | ⟨kind, -⟩ := reads_listed.1 read
    · exact ⟨Nat.zero_le _, congrArg List.tail ahead⟩
    · exact absurd (by rw [State.peek_eq ahead, closing.kind_eq]) kind
  | some list =>
    simp only [argumentTokens, separatedTokens_eq] at ahead
    obtain ⟨phrase, more, front⟩ := separated_tokens_eq_cons Phrase.tokens Phrase.first
      Phrase.tokens_eq_cons list
    obtain ⟨kind, -⟩ | ⟨-, m, inner, -, rfl⟩ := reads_listed.1 read
    · rw [front, List.cons_append] at ahead
      rw [State.peek_eq ahead] at kind
      exact absurd kind phrase.starts.ne_rightParen
    · obtain ⟨nesting, tail⟩ := items_passed (h list rfl) closing ahead inner
      exact ⟨(separatedNesting_le_iff list).2 nesting, congrArg List.tail tail⟩

theorem entered_call {callee : Phrase noGaps} (opening : Sign .leftParen)
    {arguments : Option (Separated (Phrase noGaps))} (closing : Sign .rightParen)
    (tight : .call ≤ callee.strength) (h₁ : callee.Entered)
    (h₂ : ∀ list, arguments = some list → ∀ argument ∈ list.items, argument.Passed) :
    (Phrase.call callee opening arguments closing).Entered := by
  intro levels bound s t rest w below _ tokens stops read
  have tighter : bound < .call := Nat.lt_of_le_of_lt below (by decide)
  have ahead : s.tokens =
      callee.tokens ++ opening.token :: (argumentTokens arguments ++ closing.token :: rest) := by
    simp [tokens, Phrase.tokens]
  obtain ⟨nesting₁, l, m, tail₁, folded⟩ := h₁ below (.inl (Nat.lt_of_lt_of_le tighter tight)) ahead
    (stops_cons (Nat.le_trans (Precedence.le_call _) tight) (by rw [opening.kind_eq]; decide)) read
  have peek : m.peek.kind = .leftParen := by rw [State.peek_eq tail₁, opening.kind_eq]
  -- the loop stands before the parenthesis, which binds tighter than any bound
  obtain ⟨weaker, -⟩ | ⟨-, whole, n, step, folded⟩ := (reads_fold _).1 folded
  · exact absurd tighter (by rwa [peek] at weaker)
  obtain ⟨-, found, read, -⟩ | ⟨notOpened, -⟩ := (reads_operation _).1 step
  · obtain ⟨nesting₂, tail₂⟩ := arguments_passed h₂ (s := m.advance) closing
      (congrArg List.tail tail₁) read
    refine ⟨?_, whole, n, tail₂, folded⟩
    simp only [Phrase.nesting]
    omega
  · exact absurd peek notOpened

/-! ### Statements and blocks -/

theorem clause_passed {lead : Lead} {value : Phrase noGaps}
    {semicolon : Option (Sign .semicolon)} (h : value.Passed) :
    (⟨lead, value, semicolon⟩ : Clause noGaps).Passed := by
  intro levels s t rest w tokens ends read
  have stops := stops_semicolon ends
  rw [Clause.tokens, List.append_assoc, List.append_assoc] at tokens
  obtain ⟨u, inner, rfl⟩ := (reads_statement _).1 read
  cases lead with
  | binding word name assign =>
    have ahead : s.tokens = word.token :: name.token :: assign.token ::
      (value.tokens ++ ((semicolon.map Lexed.token).toList ++ rest)) := tokens
    rw [State.current_eq ahead] at inner
    obtain ⟨-, -, e, m, body, rfl, -⟩ := (reads_statementAt_binding _ word.kind_eq).1 inner
    obtain ⟨nesting, tail⟩ := h.lowest
      (congrArg (fun tokens => tokens.tail.tail.tail) ahead) stops body
    exact ⟨nesting, skip_semicolon tail ends⟩
  | result word =>
    have ahead : s.tokens = word.token ::
      (value.tokens ++ ((semicolon.map Lexed.token).toList ++ rest)) := tokens
    rw [State.current_eq ahead] at inner
    obtain ⟨e, m, body, rfl, -⟩ := (reads_statementAt_result _ word.kind_eq).1 inner
    obtain ⟨nesting, tail⟩ := h.lowest (congrArg List.tail ahead) stops body
    exact ⟨nesting, skip_semicolon tail ends⟩
  | bare =>
    have ahead : s.tokens =
      value.tokens ++ ((semicolon.map Lexed.token).toList ++ rest) := tokens
    obtain ⟨more, front⟩ := value.tokens_eq_cons
    rw [State.current_eq (by rw [ahead, front, List.cons_append])] at inner
    obtain ⟨e, m, body, rfl, -⟩ := (reads_statementAt_expression _ value.starts.ne_letWord
      value.starts.ne_returnWord).1 inner
    obtain ⟨nesting, tail⟩ := h.lowest (s := s.note (.began value.first)) ahead stops body
    exact ⟨nesting, skip_semicolon tail ends⟩

theorem clauses_passed {clauses : List (Clause noGaps)} (h : ∀ clause ∈ clauses, clause.Passed)
    (proper : ProperClauses clauses) {levels depth : Nat} {s t : State}
    (closing : Sign .rightBrace) {rest : List Token} {ws : List Statement}
    (tokens : s.tokens = clauseTokens clauses ++ closing.token :: rest)
    (read : (statements (expressionWithin levels) depth).Reads (fun _ => False) s ws t) :
    clauseNesting clauses ≤ levels ∧ t.tokens.tail = rest := by
  induction clauses generalizing s ws with
  | nil =>
    have tokens : s.tokens = closing.token :: rest := tokens
    obtain ⟨-, -, rfl⟩ | ⟨notClosed, -⟩ := (reads_statements _).1 read
    · exact ⟨Nat.zero_le _, by rw [tokens]; rfl⟩
    · exact absurd (by rw [State.current_eq tokens, closing.kind_eq]) notClosed
  | cons clause clauses ih =>
    obtain ⟨-, between, proper⟩ := proper
    rw [clauseTokens, List.append_assoc] at tokens
    obtain ⟨token, more, front, starts⟩ := clause.tokens_eq_cons
    have current : s.current = token := State.current_eq (by rw [tokens, front, List.cons_append])
    obtain ⟨closed, -⟩ | ⟨-, -, w, m, later, first, others, -⟩ := (reads_statements _).1 read
    · exact absurd (current ▸ closed) starts.ne.1
    obtain ⟨nesting₁, tail₁⟩ := h clause List.mem_cons_self tokens
      (fun none => ends_clauseTokens (between none) (ends_brace closing rest)) first
    obtain ⟨nesting₂, tail₂⟩ := ih (fun clause member => h clause (List.mem_cons_of_mem _ member))
      proper (s := m.advance) tail₁ others
    exact ⟨Nat.max_le.2 ⟨nesting₁, nesting₂⟩, tail₂⟩

theorem block_passed {clauses : List (Clause noGaps)} (opening : Sign .leftBrace)
    (closing : Sign .rightBrace) (h : ∀ clause ∈ clauses, clause.Passed)
    (proper : ProperClauses clauses) :
    (Passage.block opening clauses closing).Passed := by
  intro levels s t rest b tokens read
  have ahead : s.tokens = opening.token :: (clauseTokens clauses ++ closing.token :: rest) := by
    rw [tokens, Passage.tokens]
    simp
  obtain ⟨ws, inner, -⟩ := (reads_block _).1 read
  exact clauses_passed h proper (s := s.advance) closing (congrArg List.tail ahead) inner

/-! ### By induction on what is written -/

/-- A clean run gets through what is proper only with levels enough. -/
theorem hereditary_passed :
    Hereditary (fun phrase : Phrase noGaps => phrase.Proper → phrase.Entered)
      (fun passage => passage.Proper → passage.Passed)
      (fun clause => clause.Proper → clause.Passed) where
  name word _ := entered_name word
  numeral digits _ := entered_numeral digits
  truth word _ := entered_truth word
  group opening closing h proper := entered_group opening closing (h proper).passed
  unary := by
    rintro operand operator h ⟨strength, proper⟩
    exact entered_unary operator strength (h proper).passed
  binary := by
    rintro left right operator h₁ h₂ ⟨below, above, proper₁, proper₂⟩
    exact entered_binary operator below above (h₁ proper₁) (h₂ proper₂).passed
  conditional := by
    rintro condition consequence alternative word opening closing h₁ h₂ h₃
      ⟨proper₁, proper₂, proper₃⟩
    refine entered_conditional word opening closing (h₁ proper₁).passed (h₂ proper₂) ?_
    rintro word body rfl
    exact h₃ word body rfl proper₃
  function word opening parameters closing h proper :=
    entered_function word opening parameters closing (h proper)
  call := by
    rintro callee arguments opening closing h₁ h₂ ⟨tight, proper₁, proper₂⟩
    refine entered_call opening closing tight (h₁ proper₁) fun list same argument member => ?_
    exact (h₂ list same argument member (proper₂.proper list same argument member)).passed
  block opening closing h proper :=
    block_passed opening closing
      (fun clause member => h clause member (ProperClauses.proper proper clause member)) proper
  gap _ _ _ permitted := permitted.elim
  clause _ _ h proper := clause_passed (h proper).passed

/-! ### Whole programs -/

theorem State.readsAll_passed {clauses : List (Clause noGaps)}
    (h : ∀ clause ∈ clauses, clause.Passed) (proper : ProperClauses clauses) {limit : Nat}
    {s t : State} {ws : List Statement} (top : s.nesting = 0)
    (tokens : s.tokens = clauseTokens clauses)
    (read : s.ReadsAll (fun _ => False) limit ws t) : clauseNesting clauses ≤ limit := by
  induction clauses generalizing s ws with
  | nil => exact Nat.zero_le _
  | cons clause clauses ih =>
    obtain ⟨-, between, proper⟩ := proper
    obtain ⟨token, more, front, starts⟩ := clause.tokens_eq_cons
    have current : s.current = token :=
      State.current_eq (by rw [tokens, clauseTokens, front, List.cons_append])
    obtain ⟨ended, -⟩ | ⟨-, w, m, later, first, others, -⟩ := (readsAll_iff top).1 read
    · exact absurd (current ▸ ended) starts.ne.2
    obtain ⟨nesting₁, tail⟩ := h clause List.mem_cons_self tokens
      (fun none => by simpa using ends_clauseTokens (between none) ends_nil) first
    have nesting₂ := ih (fun clause member => h clause (List.mem_cons_of_mem _ member)) proper
      (s := m.advance) (first.reaches.nesting_eq.trans top) tail others
    exact Nat.max_le.2 ⟨nesting₁, nesting₂⟩

/-- If the tokens of a proper document are parsed without fault, its nesting is within the limit. -/
theorem Parsed.nesting_le_of_clean {document : Document noGaps} (proper : document.Proper)
    {limit : Nat} {finish : Location}
    (clean : (ofTokens limit document.tokens finish).faults = []) : document.nesting ≤ limit := by
  have read : (State.ofTokens document.tokens finish).ReadsAll (fun _ => False) limit
      ((State.ofTokens document.tokens finish).statements limit).1
      ((State.ofTokens document.tokens finish).statements limit).2 :=
    ⟨rfl, State.adds_none_iff.2 clean⟩
  have passed : ∀ clause ∈ document.clauses, clause.Passed := fun clause member =>
    hereditary_passed.each clause (ProperClauses.proper proper clause member)
  exact State.readsAll_passed passed proper rfl rfl read

/-- **What is written is read**: the tokens of a proper document are parsed without fault exactly if
no value at top level is nested deeper than the limit, and then the program is the tree of the
document. -/
theorem Parsed.faults_ofTokens_document (document : Document noGaps) (proper : document.Proper)
    (finish : Location) :
    ((ofTokens maxNesting document.tokens finish).faults = [] ↔
        ∀ clause ∈ document.clauses, clause.nesting ≤ maxNesting) ∧
      ((∀ clause ∈ document.clauses, clause.nesting ≤ maxNesting) →
        (ofTokens maxNesting document.tokens finish).program = document.tree) := by
  have within : (∀ clause ∈ document.clauses, clause.nesting ≤ maxNesting) ↔
      document.nesting ≤ maxNesting := (clauseNesting_le_iff document.clauses).symm
  have fills : Fills noGaps (fun _ => False) .full := fills_noGaps
  have read (nesting : document.nesting ≤ maxNesting) :=
    ofTokens_complete fills proper nesting finish
  rw [within]
  refine ⟨⟨nesting_le_of_clean proper, fun nesting => ?_⟩, fun nesting => ?_⟩
  · exact List.eq_nil_iff_forall_not_mem.2 fun fault member => (read nesting).1 fault member
  · simpa [Program.view_full] using (read nesting).2

/-- The difference `a - (b)` without a semicolon. -/
def differenceDocument : Document noGaps :=
  ⟨[⟨.bare,
    .binary (.name ⟨⟨.identifier, "a", ⟨1, 1⟩⟩, rfl⟩) ⟨⟨.minus, "-", ⟨1, 3⟩⟩, trivial⟩
      (.group ⟨⟨.leftParen, "(", ⟨1, 5⟩⟩, rfl⟩ (.name ⟨⟨.identifier, "b", ⟨1, 6⟩⟩, rfl⟩)
        ⟨⟨.rightParen, ")", ⟨1, 7⟩⟩, rfl⟩), none⟩]⟩

theorem faults_differenceDocument :
    differenceDocument.Proper ∧
      (Parsed.ofTokens maxNesting differenceDocument.tokens ⟨1, 8⟩).faults = [] ∧
      (Parsed.ofTokens maxNesting differenceDocument.tokens ⟨1, 8⟩).program =
        differenceDocument.tree := by
  have proper : differenceDocument.Proper := by
    refine ⟨⟨by decide, by decide, trivial, trivial⟩, fun _ => ?_, trivial⟩
    simp [clauseTokens, EndsBefore]
  have within : ∀ clause ∈ differenceDocument.clauses, clause.nesting ≤ maxNesting := by
    simp [differenceDocument, Clause.nesting, Phrase.nesting, maxNesting]
  have read := Parsed.faults_ofTokens_document differenceDocument proper ⟨1, 8⟩
  exact ⟨proper, read.1.2 within, read.2 within⟩

end MonkeyLang
