import MonkeyLang.Proofs.Deepening
import MonkeyLang.Proofs.Diagnosis
import MonkeyLang.Proofs.Pruning
import MonkeyLang.Proofs.Resumption
import MonkeyLang.Proofs.Soundness

/-!
# Too few levels

The limit of nesting is a safety net, and it never changes what a text means.  If a run finds no
fault that says that too many expressions are open, then a run with a higher limit does the same;
and if a text is faultless with some limit, then with any other one only such faults are found, and
the program is that of the faultless run with some statements left out (`Parsed.ofLexer_limit`).

For the second half the proof follows a run with too few levels through what is written.  The run
comes to the end of every part, and what it has read there is pruned; or it is given up somewhere
inside, since no level is left (`Parser.Copes`).  In the second case what is left of the part has no
seam, so the loop that wrote the fault down goes on with a statement that is written behind it
(`clause_step`).
-/

namespace MonkeyLang

open MonkeyLang.Parser

/-! ### Runs that are given up -/

namespace Parser

variable {α β : Type} {s t m : State} {fault : Fault} {rest behind : List Token}

/-- The parser gives up for the fault at the position `t`, and all faults that it writes down on the
way are tolerated. -/
def Fails (tolerated : Fault → Prop) (parser : Parser α) (s : State) (fault : Fault)
    (t : State) : Prop :=
  parser.run s = (.error fault, t) ∧ s.Adds tolerated t

theorem Fails.reaches {tolerated : Fault → Prop} {parser : Parser α}
    (h : parser.Fails tolerated s fault t) : s.Reaches t := by
  have moved := parser.reaches s
  rwa [h.1] at moved

theorem Fails.bind {tolerated : Fault → Prop} {first : Parser α}
    (h : first.Fails tolerated s fault t) (second : α → Parser β) :
    (first >>= second).Fails tolerated s fault t :=
  ⟨run_bind_error second h.1, h.2⟩

/-- A sequence is given up where its second part is. -/
theorem Fails.after {tolerated : Fault → Prop} {first : Parser α} {second : α → Parser β}
    {v : α} (read : first.Reads tolerated s v m) (h : (second v).Fails tolerated m fault t) :
    (first >>= second).Fails tolerated s fault t :=
  ⟨(run_bind_ok second read.1).trans h.1, read.2.trans h.2⟩

/-- At this position, before the rest of what was to be read, an expression begins for which no
level is left. -/
structure Sunk (rest : List Token) (fault : Fault) (m : State) : Prop where
  deep : fault.IsTooDeep
  inside : ∃ left, m.tokens = left ++ rest ∧ left ≠ [] ∧ Seamless 0 left

/-- What had to be read behind it is now left as well. -/
theorem Sunk.further (h : Sunk behind fault m) (leads : Leads behind rest) :
    Sunk rest fault m := by
  obtain ⟨deep, left, ahead, nonempty, seamless⟩ := h
  obtain ⟨between, rfl, seamless'⟩ := leads
  refine ⟨deep, left ++ between, ?_, ?_, seamless.append seamless'⟩
  · rw [ahead, List.append_assoc]
  · exact List.append_ne_nil_of_left_ne_nil nonempty _

/-- The parser reads something good, or it is given up before the given tokens since no level is
left.  On the way it writes down only faults of the latter kind. -/
def Copes (parser : Parser α) (s : State) (rest : List Token) (good : α → State → Prop) :
    Prop :=
  (∃ v t, parser.Reads Fault.IsTooDeep s v t ∧ good v t) ∨
    ∃ fault m, parser.Fails Fault.IsTooDeep s fault m ∧ Sunk rest fault m

/-- A good value has been read up to the given tokens. -/
def UpTo (rest : List Token) (good : α → Prop) (v : α) (t : State) : Prop :=
  t.tokens.tail = rest ∧ good v

variable {good : α → State → Prop} {good' : β → State → Prop}

/-- What is read for certain. -/
theorem Copes.after {first : Parser α} {second : α → Parser β} {v : α}
    (read : first.Reads Fault.IsTooDeep s v m) (h : (second v).Copes m rest good') :
    (first >>= second).Copes s rest good' := by
  obtain ⟨w, t, read', isGood⟩ | ⟨fault, t, failed, sunk⟩ := h
  · exact .inl ⟨w, t, reads_bind.2 ⟨v, m, read, read'⟩, isGood⟩
  · exact .inr ⟨fault, t, .after read failed, sunk⟩

/-- In a sequence the second part may rely on what the first has read. -/
theorem Copes.bind {first : Parser α} {second : α → Parser β}
    (h : first.Copes s behind good) (leads : Leads behind rest)
    (next : ∀ v t, good v t → (second v).Copes t rest good') :
    (first >>= second).Copes s rest good' := by
  obtain ⟨v, t, read, isGood⟩ | ⟨fault, t, failed, sunk⟩ := h
  · exact .after read (next v t isGood)
  · exact .inr ⟨fault, t, failed.bind second, sunk.further leads⟩

theorem copes_current {second : Token → Parser β} {token : Token} (same : s.current = token)
    (h : (second token).Copes s rest good') : (current >>= second).Copes s rest good' :=
  .after (reads_current.2 ⟨same, rfl⟩) h

theorem copes_advance {second : Unit → Parser β} (h : (second ()).Copes s.advance rest good') :
    (advance >>= second).Copes s rest good' :=
  .after (reads_advance (v := ()).2 rfl) h

theorem copes_expect {wanted : Kind} {second : Token → Parser β} (found : s.peek.kind = wanted)
    (h : (second s.peek).Copes s.advance rest good') :
    (expect wanted >>= second).Copes s rest good' :=
  .after (reads_expect.2 ⟨found, rfl, rfl⟩) h

theorem copes_peekIs {kind : Kind} {second : Bool → Parser β} (found : s.peek.kind = kind)
    (h : (second true).Copes s rest good') : (peekIs kind >>= second).Copes s rest good' :=
  .after (reads_peekIs.2 ⟨decide_eq_true found, rfl⟩) h

theorem copes_peekIs_not {kind : Kind} {second : Bool → Parser β} (other : s.peek.kind ≠ kind)
    (h : (second false).Copes s rest good') : (peekIs kind >>= second).Copes s rest good' :=
  .after (reads_peekIs.2 ⟨decide_eq_false other, rfl⟩) h

theorem copes_pure {v : α} (isGood : good v s) : (pure v : Parser α).Copes s rest good :=
  .inl ⟨v, s, reads_pure.2 ⟨rfl, rfl⟩, isGood⟩

theorem copes_nested {parser : Parser α} {p : α → Prop}
    (h : parser.Copes { s with nesting := s.nesting + 1 } rest (UpTo rest p)) :
    (nested parser).Copes s rest (UpTo rest p) := by
  obtain ⟨v, t, read, isGood⟩ | ⟨fault, m, ⟨run, adds⟩, sunk⟩ := h
  · exact .inl ⟨v, _, reads_nested.2 ⟨t, read, rfl⟩, isGood⟩
  · refine .inr ⟨fault, { m with nesting := m.nesting - 1 }, ⟨?_, adds⟩,
      sunk.deep, sunk.inside⟩
    rw [run_nested, run]

end Parser

/-! ### Statements that are given up -/

/-- Going on behind a statement that was given up for a tolerated fault. -/
theorem State.Adds.resume {tolerated : Fault → Prop} {s m : State} {fault : Fault}
    (h : s.Adds tolerated m) (allowed : tolerated fault) (depth : Nat) :
    s.Adds tolerated ((m.note (.failed fault)).synchronize depth).advance := by
  refine (h.trans ⟨[fault], faults_note_failed m fault, ?_⟩).trans (.of_eq (faults_resume _ depth))
  exact List.forall_mem_singleton.2 allowed

/-- A block goes on behind a statement that was given up. -/
theorem Parser.reads_statements_failed {tolerated : Fault → Prop}
    (expr : Precedence → Parser Expression) {depth : Nat} {s m t : State} {fault : Fault}
    {vs : List Statement} (notClosed : s.current.kind ≠ .rightBrace)
    (notEnded : s.current.kind ≠ .endOfInput)
    (failed : (statement expr).Fails tolerated s fault m) (allowed : tolerated fault)
    (stays : m.current.kind ≠ .rightBrace)
    (later : (statements expr depth).Reads tolerated
      ((m.note (.failed fault)).synchronize depth).advance vs t) :
    (statements expr depth).Reads tolerated s vs t := by
  refine ⟨?_, (failed.2.resume allowed depth).trans later.2⟩
  show statementsFrom expr depth s = _
  rw [statementsFrom_of_error expr notClosed notEnded failed.1, if_neg (fun into => stays into.1)]
  exact later.1

/-- So does a program. -/
theorem State.readsAll_failed {tolerated : Fault → Prop} {limit : Nat} {s m t : State}
    {fault : Fault} {vs : List Statement} (top : s.nesting = 0)
    (notEnded : s.current.kind ≠ .endOfInput)
    (failed : (statement (expressionWithin limit)).Fails tolerated s fault m)
    (allowed : tolerated fault)
    (later : ReadsAll tolerated limit ((m.note (.failed fault)).synchronize 0).advance vs t) :
    ReadsAll tolerated limit s vs t := by
  refine ⟨?_, (failed.2.resume allowed 0).trans later.2⟩
  rw [statements_of_error notEnded ((run_statement_expression top).trans failed.1)]
  exact later.1

/-! ### What is to be shown -/

section
variable {levels : Nat} {bound : Precedence} {s : State} {rest : List Token}

/-- The loop over operators, started where the phrase begins, copes with what follows if it does so
from the end of the phrase on, with the pruned tree in hand. -/
def Phrase.Enters (phrase : Phrase noGaps) : Prop :=
  ∀ (levels : Nat) ⦃bound : Precedence⦄ ⦃s : State⦄ ⦃behind rest : List Token⦄
    ⦃good : Expression → State → Prop⦄,
    bound ≤ .unary → bound < phrase.strength ∨ .unary ≤ phrase.strength →
    s.tokens = phrase.tokens ++ behind → Stops phrase.strength behind → Leads behind rest →
    (∀ e m, UpTo behind (Expression.PrunedFrom · phrase.tree) e m →
      (fold (expressionWithin levels) bound e).Copes m rest good) →
      (operators (expressionWithin levels) bound).Copes s rest good

/-- The parser copes with the phrase where nothing follows that binds tighter than the bound. -/
def Phrase.Managed (phrase : Phrase noGaps) : Prop :=
  ∀ (levels : Nat) ⦃bound : Precedence⦄ ⦃s : State⦄ ⦃rest : List Token⦄,
    bound ≤ .unary → bound < phrase.strength ∨ .unary ≤ phrase.strength →
    s.tokens = phrase.tokens ++ rest → Stops bound rest →
      (expressionWithin levels bound).Copes s rest
        (UpTo rest (Expression.PrunedFrom · phrase.tree))

/-- The parser copes with the passage. -/
def Passage.Managed (passage : Passage noGaps) : Prop :=
  ∀ (levels : Nat) ⦃s : State⦄ ⦃rest : List Token⦄, s.tokens = passage.tokens ++ rest →
    (Parser.block (expressionWithin levels)).Copes s rest
      (UpTo rest (Block.PrunedFrom · passage.tree))

/-- The parser copes with the clause, and if it has no semicolon, where it may end.  It is given up
before its semicolon at the latest. -/
def Clause.Managed (clause : Clause noGaps) : Prop :=
  ∀ (levels : Nat) ⦃s : State⦄ ⦃rest : List Token⦄, s.tokens = clause.tokens ++ rest →
    (clause.semicolon = none → Ends rest) →
      (statement (expressionWithin levels)).Copes s (clause.ending ++ rest)
        (UpTo rest (Statement.PrunedFrom · clause.tree))

/-- The loop stops where nothing follows that binds tighter than the bound, and it is not entered
where no level is left. -/
theorem Phrase.Enters.managed {phrase : Phrase noGaps} (h : phrase.Enters) : phrase.Managed := by
  intro levels bound s rest below bounded tokens stops
  cases levels with
  | zero =>
    obtain ⟨more, front⟩ := phrase.tokens_eq_cons
    refine .inr ⟨_, s, ⟨rfl, .refl s⟩, ⟨_, _, rfl⟩, phrase.tokens, tokens, ?_, ?_⟩
    · rw [front]
      exact List.cons_ne_nil _ _
    · exact hereditary_seamless.phrase phrase
  | succ levels =>
    have holds : bound ≤ phrase.strength := by
      simp only [Precedence.lt_iff_rank, Precedence.le_iff_rank] at *
      omega
    refine copes_nested (h levels below bounded tokens (stops.mono holds) (.refl rest) ?_)
    intro e m read
    have stopped : ¬bound < .ofKind m.peek.kind :=
      Nat.not_lt.2 (State.peek_of_stops read.1 stops).1
    exact .inl ⟨e, m, (reads_fold _).2 (.inl ⟨stopped, rfl, rfl⟩), read⟩

theorem Phrase.Managed.lowest {phrase : Phrase noGaps} (h : phrase.Managed) (levels : Nat)
    (tokens : s.tokens = phrase.tokens ++ rest) (stops : Stops .lowest rest) :
    (expressionWithin levels .lowest).Copes s rest
      (UpTo rest (Expression.PrunedFrom · phrase.tree)) :=
  h levels (by decide) (.inl phrase.lowest_lt_strength) tokens stops

/-! ### Operands -/

/-- An operand is what the loop over operators begins with. -/
theorem Phrase.enters_of_operand {phrase : Phrase noGaps}
    (h : ∀ (levels : Nat) ⦃s : State⦄ ⦃rest : List Token⦄, s.tokens = phrase.tokens ++ rest →
      Stops phrase.strength rest →
        (operand (expressionWithin levels)).Copes s rest
          (UpTo rest (Expression.PrunedFrom · phrase.tree))) : phrase.Enters := by
  intro levels bound s behind rest good _ _ tokens stops leads next
  exact (h levels tokens stops).bind leads next

theorem enters_name (word : Sign .identifier) : (Phrase.name word : Phrase noGaps).Enters := by
  apply Phrase.enters_of_operand
  intro levels s rest tokens _
  refine copes_current (State.current_eq tokens) ?_
  rw [word.kind_eq]
  exact copes_pure ⟨congrArg List.tail tokens, .identifier _⟩

theorem enters_numeral {digits : Sign .integer}
    (proper : numeralValue digits.token.literal.toList ≤ maxInteger) :
    (Phrase.numeral digits : Phrase noGaps).Enters := by
  apply Phrase.enters_of_operand
  intro levels s rest tokens _
  refine copes_current (State.current_eq tokens) ?_
  rw [digits.kind_eq]
  refine .inl ⟨_, s, reads_integer.2 ⟨proper, rfl, rfl⟩, ?_⟩
  exact ⟨congrArg List.tail tokens, .integer _ _⟩

theorem enters_truth (word : Lexed Kind.IsTruth) :
    (Phrase.truth word : Phrase noGaps).Enters := by
  apply Phrase.enters_of_operand
  intro levels s rest tokens _
  refine copes_current (State.current_eq tokens) ?_
  have tail : s.tokens.tail = rest := congrArg List.tail tokens
  rcases Kind.isTruth_iff.1 word.kind with kind | kind
  · rw [kind]
    refine copes_pure ⟨tail, ?_⟩
    simpa [Phrase.tree, kind] using Expression.PrunedFrom.boolean word.token true
  · rw [kind]
    refine copes_pure ⟨tail, ?_⟩
    simpa [Phrase.tree, kind] using Expression.PrunedFrom.boolean word.token false

theorem enters_group {inner : Phrase noGaps} (opening : Sign .leftParen)
    (closing : Sign .rightParen) (h : inner.Managed) :
    (Phrase.group opening inner closing).Enters := by
  apply Phrase.enters_of_operand
  intro levels s rest tokens _
  have ahead : s.tokens = opening.token :: (inner.tokens ++ closing.token :: rest) := by
    rw [tokens, Phrase.tokens, List.cons_append, List.append_assoc]
    rfl
  refine copes_current (State.current_eq ahead) ?_
  rw [opening.kind_eq]
  have inside := h.lowest levels (s := s.advance) (congrArg List.tail ahead)
    (stops_sign closing rest rfl (by decide))
  refine copes_advance (inside.bind (.sign closing trivial (.refl rest)) ?_)
  rintro e m ⟨tail, pruned⟩
  refine copes_expect ?_ (copes_pure ⟨congrArg List.tail tail, pruned⟩)
  rw [State.peek_eq tail, closing.kind_eq]

theorem enters_unary {inner : Phrase noGaps} (operator : Lexed Kind.IsUnary)
    (strength : .unary ≤ inner.strength) (h : inner.Managed) :
    (Phrase.unary operator inner).Enters := by
  apply Phrase.enters_of_operand
  intro levels s rest tokens stops
  have ahead : s.tokens = operator.token :: (inner.tokens ++ rest) := tokens
  have whole : (Parser.unary (expressionWithin levels) operator.token).Copes s rest
      (UpTo rest (Expression.PrunedFrom · (Phrase.unary operator inner).tree)) := by
    have inside := h levels (s := s.advance) (Nat.le_refl _) (.inr strength)
      (congrArg List.tail ahead) stops
    refine copes_advance (inside.bind (.refl rest) ?_)
    rintro e m ⟨tail, pruned⟩
    exact copes_pure ⟨tail, .unary _ _ pruned⟩
  refine copes_current (State.current_eq ahead) ?_
  rcases Kind.isUnary_iff.1 operator.kind with kind | kind
  · rw [kind]
    exact whole
  · rw [kind]
    exact whole

/-- A block begins with its opening brace. -/
theorem peek_passage {passage : Passage noGaps}
    (tail : s.tokens.tail = passage.tokens ++ rest) : s.peek.kind = .leftBrace := by
  obtain ⟨brace, more, front⟩ := passage.tokens_eq_cons
  rw [State.peek_eq (by rw [tail, front]; rfl), brace.kind_eq]

theorem enters_conditional {condition : Phrase noGaps} {consequence : Passage noGaps}
    {alternative : Option (Sign .elseWord × Passage noGaps)} (word : Sign .ifWord)
    (opening : Sign .leftParen) (closing : Sign .rightParen) (h₁ : condition.Managed)
    (h₂ : consequence.Managed)
    (h₃ : ∀ word body, alternative = some (word, body) → body.Managed) :
    (Phrase.conditional word opening condition closing consequence alternative).Enters := by
  apply Phrase.enters_of_operand
  intro levels s rest tokens stops
  have ahead : s.tokens = word.token :: opening.token :: (condition.tokens ++ closing.token ::
      (consequence.tokens ++ (alternativeTokens alternative ++ rest))) := by
    rw [tokens, Phrase.tokens]
    simp
  have last : Leads (alternativeTokens alternative ++ rest) rest := by
    refine .append (seamless_alternativeTokens ?_) (.refl rest)
    exact fun _ body _ => hereditary_seamless.passage body
  have leads := last.append (hereditary_seamless.passage consequence)
  have opened : s.peek.kind = .leftParen := by
    rw [State.peek_eq (congrArg List.tail ahead), opening.kind_eq]
  have first := h₁.lowest levels (s := s.advance.advance)
    (congrArg (fun tokens => tokens.tail.tail) ahead) (stops_sign closing _ rfl (by decide))
  refine copes_current (State.current_eq ahead) ?_
  rw [word.kind_eq]
  refine copes_expect opened (copes_advance (first.bind (.sign closing trivial leads) ?_))
  rintro c m ⟨tail₁, pruned₁⟩
  have closed : m.peek.kind = .rightParen := by rw [State.peek_eq tail₁, closing.kind_eq]
  have second := h₂ levels (s := m.advance.advance) (congrArg List.tail tail₁)
  refine copes_expect closed (copes_expect (peek_passage (congrArg List.tail tail₁))
    (second.bind last ?_))
  rintro b n ⟨tail₂, pruned₂⟩
  cases alternative with
  | none =>
    have tail₂ : n.tokens.tail = rest := tail₂
    refine copes_peekIs_not (State.peek_of_stops tail₂ stops).2 ?_
    exact copes_pure ⟨tail₂, .conditional _ pruned₁ pruned₂ .none⟩
  | some alternative =>
    obtain ⟨elseSign, body⟩ := alternative
    have tail₂ : n.tokens.tail = elseSign.token :: (body.tokens ++ rest) := tail₂
    have third := h₃ elseSign body rfl levels (s := n.advance.advance) (congrArg List.tail tail₂)
    refine copes_peekIs (by rw [State.peek_eq tail₂, elseSign.kind_eq]) (copes_advance ?_)
    refine copes_expect (peek_passage (congrArg List.tail tail₂)) (third.bind (.refl rest) ?_)
    rintro a t ⟨tail₃, pruned₃⟩
    exact copes_pure ⟨tail₃, .conditional _ pruned₁ pruned₂ (.some pruned₃)⟩

theorem enters_function {body : Passage noGaps} (word : Sign .functionWord)
    (opening : Sign .leftParen) (parameters : Option (Separated (Sign .identifier)))
    (closing : Sign .rightParen) (h : body.Managed) :
    (Phrase.function word opening parameters closing body).Enters := by
  apply Phrase.enters_of_operand
  intro levels s rest tokens _
  have ahead : s.tokens = word.token :: opening.token ::
      (parameterTokens parameters ++ closing.token :: (body.tokens ++ rest)) := by
    rw [tokens, Phrase.tokens]
    simp
  have opened : s.peek.kind = .leftParen := by
    rw [State.peek_eq (congrArg List.tail ahead), opening.kind_eq]
  obtain ⟨m, read, tail₁⟩ := parameters_complete parameters (s := s.advance) closing
    (congrArg (fun tokens => tokens.tail.tail) ahead)
  refine copes_current (State.current_eq ahead) ?_
  rw [word.kind_eq]
  have inside := h levels (s := m.advance) tail₁
  refine copes_expect opened (.after read (copes_expect (peek_passage tail₁) ?_))
  refine inside.bind (.refl rest) ?_
  rintro b t ⟨tail₂, pruned⟩
  exact copes_pure ⟨tail₂, .function _ _ pruned⟩

/-! ### Operators -/

/-- Where an operator is ahead that binds tighter than the bound, the loop takes it. -/
theorem copes_fold {left : Expression} {behind : List Token}
    {good good' : Expression → State → Prop} (tighter : bound < .ofKind s.peek.kind)
    (h : (operation (expressionWithin levels) left).Copes s.advance behind good)
    (leads : Leads behind rest)
    (next : ∀ e t, good e t → (fold (expressionWithin levels) bound e).Copes t rest good') :
    (fold (expressionWithin levels) bound left).Copes s rest good' := by
  rw [fold_eq]
  refine .after (reads_look.2 ⟨decide_eq_true tighter, rfl⟩) ?_
  exact copes_advance (h.bind leads next)

theorem enters_binary {left right : Phrase noGaps} (operator : Lexed Kind.IsBinary)
    (below : .ofKind operator.token.kind ≤ left.strength)
    (above : .ofKind operator.token.kind < right.strength) (h₁ : left.Enters)
    (h₂ : right.Managed) : (Phrase.binary left operator right).Enters := by
  intro levels bound s behind rest good below' bounded tokens stops leads next
  have weak := operator.kind.lt_unary
  -- the loop does not stop at the operator, which binds tighter than the bound
  have tighter : bound < .ofKind operator.token.kind := by
    apply bounded.resolve_right
    intro strong
    exact Nat.not_le.2 weak strong
  have ahead : s.tokens = left.tokens ++ operator.token :: (right.tokens ++ behind) := by
    rw [tokens, Phrase.tokens, List.append_assoc]
    rfl
  have leads' : Leads (operator.token :: (right.tokens ++ behind)) rest :=
    .cons operator.kind.isInner (leads.append (hereditary_seamless.phrase right))
  refine h₁ levels below' (.inl (Nat.lt_of_lt_of_le tighter below)) ahead
    (stops_cons below fun kind => by simpa [kind, Kind.IsBinary] using operator.kind) leads' ?_
  rintro l m ⟨tail₁, pruned₁⟩
  have peek : m.peek = operator.token := State.peek_eq tail₁
  have second := h₂ levels (s := m.advance.advance) (Nat.le_of_lt weak) (.inl above)
    (congrArg List.tail tail₁) stops
  have step : (operation (expressionWithin levels) l).Copes m.advance behind
      (UpTo behind (Expression.PrunedFrom · (Phrase.binary left operator right).tree)) := by
    refine copes_current peek ?_
    rw [if_neg (Kind.isBinary_iff.1 operator.kind).2]
    refine copes_advance (second.bind (.refl behind) ?_)
    rintro r t ⟨tail₂, pruned₂⟩
    exact copes_pure ⟨tail₂, .binary _ _ pruned₁ pruned₂⟩
  exact copes_fold (by rwa [peek]) step leads next

/-- If the parser copes with every argument, it does with the list. -/
theorem items_managed (levels : Nat) {list : Separated (Phrase noGaps)}
    (h : ∀ argument ∈ list.items, argument.Managed) (closing : Sign .rightParen)
    (ahead : s.tokens.tail = list.tokens Phrase.tokens ++ closing.token :: rest) :
    (items (argument (expressionWithin levels))).Copes s (closing.token :: rest)
      (UpTo (closing.token :: rest) (PrunedArguments · (list.items.map Phrase.tree))) := by
  induction list generalizing s with
  | last phrase =>
    have only := (h phrase (by simp [Separated.items])).lowest levels (s := s.advance) ahead
      (stops_sign closing rest rfl (by decide))
    rw [items_eq]
    refine .bind (copes_advance only) (.refl _) ?_
    rintro e m ⟨tail, pruned⟩
    refine copes_peekIs_not (by rw [State.peek_eq tail, closing.kind_eq]; decide) ?_
    exact copes_pure ⟨tail, .cons pruned .nil⟩
  | more phrase comma later ih =>
    rw [Separated.tokens, List.append_assoc] at ahead
    have first := (h phrase (by simp [Separated.items])).lowest levels (s := s.advance) ahead
      (stops_sign comma _ rfl (by decide))
    rw [items_eq]
    have leads : Leads (comma.token :: (later.tokens Phrase.tokens ++ closing.token :: rest))
        (closing.token :: rest) :=
      .sign comma trivial (.append (seamless_separated Phrase.tokens fun other _ =>
        hereditary_seamless.phrase other) (.refl _))
    refine .bind (copes_advance first) leads ?_
    rintro e m ⟨tail, pruned⟩
    have others := ih (fun other member => h other (by simp [Separated.items, member]))
      (s := m.advance) (congrArg List.tail tail)
    refine copes_peekIs (by rw [State.peek_eq tail, comma.kind_eq]) (copes_advance ?_)
    refine others.bind (.refl _) ?_
    rintro es t ⟨tail', pruned'⟩
    exact copes_pure ⟨tail', .cons pruned pruned'⟩

theorem arguments_managed (levels : Nat) {arguments : Option (Separated (Phrase noGaps))}
    (h : ∀ list, arguments = some list → ∀ argument ∈ list.items, argument.Managed)
    (closing : Sign .rightParen)
    (ahead : s.tokens.tail = argumentTokens arguments ++ closing.token :: rest) :
    (listed (argument (expressionWithin levels))).Copes s rest
      (UpTo rest (PrunedArguments · (argumentTrees arguments))) := by
  cases arguments with
  | none =>
    refine copes_peekIs (by rw [State.peek_eq ahead, closing.kind_eq]) (copes_advance ?_)
    exact copes_pure ⟨congrArg List.tail ahead, .nil⟩
  | some list =>
    rw [argumentTokens, separatedTokens_eq] at ahead
    have inside := items_managed levels (h list rfl) closing ahead
    -- the list is not taken for an empty one: no expression begins with a parenthesis that closes
    obtain ⟨phrase, more, front⟩ := separated_tokens_eq_cons Phrase.tokens Phrase.first
      Phrase.tokens_eq_cons list
    rw [front, List.cons_append] at ahead
    refine copes_peekIs_not ?_ (inside.bind (.sign closing trivial (.refl rest)) ?_)
    · rw [State.peek_eq ahead]
      exact phrase.starts.ne_rightParen
    · rintro es t ⟨tail, pruned⟩
      refine copes_expect (by rw [State.peek_eq tail, closing.kind_eq])
        (copes_pure ⟨congrArg List.tail tail, ?_⟩)
      rw [argumentTrees, separatedTrees_eq]
      exact pruned

theorem enters_call {callee : Phrase noGaps} (opening : Sign .leftParen)
    {arguments : Option (Separated (Phrase noGaps))} (closing : Sign .rightParen)
    (tight : .call ≤ callee.strength) (h₁ : callee.Enters)
    (h₂ : ∀ list, arguments = some list → ∀ argument ∈ list.items, argument.Managed) :
    (Phrase.call callee opening arguments closing).Enters := by
  intro levels bound s behind rest good below _ tokens stops leads next
  have tighter : bound < .call := Nat.lt_of_le_of_lt below (by decide)
  have ahead : s.tokens =
      callee.tokens ++ opening.token :: (argumentTokens arguments ++ closing.token :: behind) := by
    simp [tokens, Phrase.tokens]
  have seamless : Seamless 0 (argumentTokens arguments) :=
    seamless_argumentTokens fun _ _ argument _ => hereditary_seamless.phrase argument
  refine h₁ levels below (.inl (Nat.lt_of_lt_of_le tighter tight)) ahead
    (stops_cons (Nat.le_trans (Precedence.le_call _) tight) (by rw [opening.kind_eq]; decide))
    (.sign opening trivial (.append seamless (.sign closing trivial leads))) ?_
  rintro l m ⟨tail₁, pruned₁⟩
  have peek : m.peek = opening.token := State.peek_eq tail₁
  have second := arguments_managed levels h₂ (s := m.advance) closing
    (congrArg List.tail tail₁)
  have step : (operation (expressionWithin levels) l).Copes m.advance behind
      (UpTo behind (Expression.PrunedFrom ·
        (Phrase.call callee opening arguments closing).tree)) := by
    refine copes_current peek ?_
    rw [if_pos opening.kind_eq]
    refine second.bind (.refl behind) ?_
    rintro es t ⟨tail₂, pruned₂⟩
    exact copes_pure ⟨tail₂, .call _ pruned₁ pruned₂⟩
  exact copes_fold (by rwa [peek, opening.kind_eq]) step leads next

/-! ### Statements and blocks -/

/-- The value of a statement, perhaps with a semicolon. -/
theorem copes_ending (levels : Nat) {value : Phrase noGaps} {semicolon : Option (Sign .semicolon)}
    {make : Expression → Statement} {whole : Statement} (h : value.Managed)
    (makes : ∀ e, e.PrunedFrom value.tree → (make e).PrunedFrom whole)
    (ends : semicolon = none → Ends rest)
    (ahead : s.tokens = value.tokens ++ ((semicolon.map Lexed.token).toList ++ rest)) :
    Copes (do let value ← expressionWithin levels .lowest; skip .semicolon; pure (make value)) s
      ((semicolon.map Lexed.token).toList ++ rest) (UpTo rest (Statement.PrunedFrom · whole)) := by
  refine (h.lowest levels ahead (stops_semicolon ends)).bind (.refl _) ?_
  rintro e m ⟨tail, pruned⟩
  refine .after (reads_skip (v := ()).2 rfl) (copes_pure ⟨skip_semicolon tail ends, ?_⟩)
  exact makes e pruned

theorem clause_managed {lead : Lead} {value : Phrase noGaps}
    {semicolon : Option (Sign .semicolon)} (h : value.Managed) :
    (⟨lead, value, semicolon⟩ : Clause noGaps).Managed := by
  intro levels s rest tokens ends
  rw [Clause.tokens, List.append_assoc, List.append_assoc] at tokens
  -- the events at both ends of the statement do not matter
  suffices inner : (statementAt (expressionWithin levels) s.current).Copes
      (s.note (.began s.current)) ((semicolon.map Lexed.token).toList ++ rest)
      (UpTo rest (Statement.PrunedFrom · (lead.statement value.first value.tree))) by
    refine copes_current rfl (.after (reads_note_began (v := ()).2 rfl) ?_)
    refine inner.bind (.refl _) ?_
    rintro w t ⟨tail, pruned⟩
    exact .after (reads_note_completed (v := ()).2 rfl) (copes_pure ⟨tail, pruned⟩)
  cases lead with
  | binding word name assign =>
    have ahead : s.tokens = word.token :: name.token :: assign.token ::
      (value.tokens ++ ((semicolon.map Lexed.token).toList ++ rest)) := tokens
    have second : s.peek = name.token := State.peek_eq (congrArg List.tail ahead)
    have third : s.advance.peek = assign.token :=
      State.peek_eq (congrArg (fun tokens => tokens.tail.tail) ahead)
    rw [State.current_eq ahead, statementAt, word.kind_eq]
    refine copes_expect ?_ (copes_expect ?_ (copes_advance ?_))
    · rw [State.note_peek, second, name.kind_eq]
    · exact third ▸ assign.kind_eq
    · refine copes_ending levels h (fun e pruned => ?_) ends
        (congrArg (fun tokens => tokens.tail.tail.tail) ahead)
      rw [State.note_peek, second]
      exact .binding _ _ pruned
  | result word =>
    have ahead : s.tokens = word.token ::
      (value.tokens ++ ((semicolon.map Lexed.token).toList ++ rest)) := tokens
    rw [State.current_eq ahead, statementAt, word.kind_eq]
    exact copes_advance (copes_ending levels h (fun e pruned => .result _ pruned) ends
      (congrArg List.tail ahead))
  | bare =>
    have ahead : s.tokens =
      value.tokens ++ ((semicolon.map Lexed.token).toList ++ rest) := tokens
    obtain ⟨more, front⟩ := value.tokens_eq_cons
    rw [State.current_eq (by rw [ahead, front, List.cons_append]), statementAt]
    have ending := copes_ending levels (s := s.note (.began value.first)) h
      (fun e pruned => .expression value.first pruned) ends ahead
    split
    · exact absurd (by assumption) value.starts.ne_letWord
    · exact absurd (by assumption) value.starts.ne_returnWord
    · exact ending

end

/-- **One statement of a list.**  It is read, perhaps pruned, and the next one begins behind it; or
it is given up since no level is left, and behind the place to which recovery leads another
statement of the list begins, or the list has come to its end. -/
theorem clause_step (levels : Nat) {clause : Clause noGaps} {clauses : List (Clause noGaps)}
    (h : clause.Managed) (between : clause.semicolon = none → EndsBefore (clauseTokens clauses))
    {depth : Nat} {s : State} {rest : List Token} (closes : State.Closes rest)
    (tokens : s.tokens = clauseTokens (clause :: clauses) ++ rest) (level : s.Level depth) :
    (∃ w t, (statement (expressionWithin levels)).Reads Fault.IsTooDeep s w t ∧
        w.PrunedFrom clause.tree ∧ t.advance.tokens = clauseTokens clauses ++ rest ∧
        t.advance.Level depth) ∨
      ∃ fault m later, (statement (expressionWithin levels)).Fails Fault.IsTooDeep s fault m ∧
        fault.IsTooDeep ∧ m.current.kind ≠ .rightBrace ∧ later <:+ clauses ∧
        ((m.note (.failed fault)).synchronize depth).advance.tokens =
          clauseTokens later ++ rest ∧
        ((m.note (.failed fault)).synchronize depth).advance.Level depth := by
  rw [clauseTokens, List.append_assoc] at tokens
  obtain ⟨w, t, read, tail, pruned⟩ | ⟨fault, m, failed, deep, left, ahead, nonempty, seamless⟩ :=
    h levels tokens fun none => ends_clauseTokens (between none) closes.ends
  · refine .inl ⟨w, t, read, pruned, tail, ?_⟩
    exact level.behind_clause read.reaches.advance (by rw [tokens, State.advance_tokens, tail])
  · have level' : m.Level depth := level.inside_clause failed.reaches tokens ahead seamless
    obtain ⟨later, suffix, tail, counted⟩ := State.synchronize_clauses
      (s := m.note (.failed fault)) closes seamless nonempty ahead level'
    refine .inr ⟨fault, m, later, failed, deep, ?_, suffix, tail,
      State.level_advance counted⟩
    obtain ⟨token, more, rfl⟩ := List.exists_cons_of_ne_nil nonempty
    rw [State.current_eq ahead]
    exact (seamless.2.1 rfl).2

theorem ProperClauses.of_suffix {clauses later : List (Clause noGaps)}
    (proper : ProperClauses clauses) (suffix : later <:+ clauses) : ProperClauses later := by
  obtain ⟨front, rfl⟩ := suffix
  induction front with
  | nil => exact proper
  | cons clause front ih => exact ih proper.2.2

theorem clauseTrees_suffix {clauses later : List (Clause noGaps)} (suffix : later <:+ clauses) :
    clauseTrees later <:+ clauseTrees clauses := by
  obtain ⟨front, rfl⟩ := suffix
  induction front with
  | nil => exact List.suffix_rfl
  | cons clause front ih => exact ih.trans (List.suffix_cons _ _)

/-- What has been read of a list of statements behind one that was given up. -/
theorem PrunedStatements.of_later {clause : Clause noGaps} {clauses later : List (Clause noGaps)}
    {ws : List Statement} (h : PrunedStatements ws (clauseTrees later))
    (suffix : later <:+ clauses) : PrunedStatements ws (clauseTrees (clause :: clauses)) :=
  .drop _ (h.of_suffix (clauseTrees_suffix suffix))

/-- A clause begins neither with a closing brace nor at the end of input. -/
theorem current_clause {clause : Clause noGaps} {clauses : List (Clause noGaps)} {s : State}
    {rest : List Token} (tokens : s.tokens = clauseTokens (clause :: clauses) ++ rest) :
    s.current.kind ≠ .rightBrace ∧ s.current.kind ≠ .endOfInput := by
  obtain ⟨token, more, front, starts⟩ := clause.tokens_eq_cons
  rw [State.current_eq (by rw [tokens, clauseTokens, front]; rfl)]
  exact starts.ne

theorem clauses_managed (levels : Nat) {clauses : List (Clause noGaps)}
    (h : ∀ clause ∈ clauses, clause.Managed) (proper : ProperClauses clauses) {depth : Nat}
    {s : State} (closing : Sign .rightBrace) {rest : List Token}
    (tokens : s.tokens = clauseTokens clauses ++ closing.token :: rest) (level : s.Level depth) :
    ∃ ws t, (statements (expressionWithin levels) depth).Reads Fault.IsTooDeep s ws t ∧
      UpTo rest (PrunedStatements · (clauseTrees clauses)) ws t := by
  induction length : clauses.length using Nat.strongRecOn generalizing clauses s with
  | ind n ih =>
    cases clauses with
    | nil =>
      have tokens : s.tokens = closing.token :: rest := tokens
      refine ⟨[], s, reads_statements_nil _ ?_, congrArg List.tail tokens, .nil⟩
      rw [State.current_eq tokens, closing.kind_eq]
    | cons clause clauses =>
      obtain ⟨-, between, proper'⟩ := proper
      obtain ⟨notClosed, notEnded⟩ := current_clause tokens
      have h' := List.forall_mem_of_forall_mem_cons h
      have fewer : clauses.length < n := length ▸ Nat.lt_succ_self _
      obtain ⟨w, m, read, pruned, tokens', level'⟩ |
          ⟨fault, m, later, failed, deep, stays, suffix, tokens', level'⟩ :=
        clause_step levels (h clause List.mem_cons_self) between
          (State.closes_brace closing rest) tokens level
      · obtain ⟨ws, t, read', tail, pruned'⟩ := ih _ fewer h' proper' tokens' level' rfl
        exact ⟨w :: ws, t, reads_statements_cons _ notClosed notEnded read read', tail,
          .keep pruned pruned'⟩
      · obtain ⟨ws, t, read', tail, pruned'⟩ :=
          ih _ (Nat.lt_of_le_of_lt suffix.length_le fewer)
            (fun other member => h' other (suffix.mem member)) (proper'.of_suffix suffix)
            tokens' level' rfl
        exact ⟨ws, t, reads_statements_failed _ notClosed notEnded failed deep stays read', tail,
          pruned'.of_later suffix⟩

theorem block_managed {clauses : List (Clause noGaps)} (opening : Sign .leftBrace)
    (closing : Sign .rightBrace) (h : ∀ clause ∈ clauses, clause.Managed)
    (proper : ProperClauses clauses) : (Passage.block opening clauses closing).Managed := by
  intro levels s rest tokens
  have ahead : s.tokens = opening.token :: (clauseTokens clauses ++ closing.token :: rest) := by
    rw [tokens, Passage.tokens]
    simp
  obtain ⟨ws, t, read, tail, pruned⟩ := clauses_managed levels h proper (s := s.advance) closing
    (congrArg List.tail ahead) (State.level_advance rfl)
  refine .inl ⟨⟨opening.token, ws⟩, t, (reads_block _).2 ⟨ws, read, ?_⟩, tail, .mk _ pruned⟩
  rw [State.current_eq ahead]

/-! ### By induction on what is written -/

/-- The parser copes with everything that is proper, however few levels are left. -/
theorem hereditary_managed :
    Hereditary (fun phrase : Phrase noGaps => phrase.Proper → phrase.Enters)
      (fun passage => passage.Proper → passage.Managed)
      (fun clause => clause.Proper → clause.Managed) where
  name word _ := enters_name word
  numeral _ := enters_numeral
  truth word _ := enters_truth word
  group opening closing h proper := enters_group opening closing (h proper).managed
  unary := by
    rintro operand operator h ⟨strength, proper⟩
    exact enters_unary operator strength (h proper).managed
  binary := by
    rintro left right operator h₁ h₂ ⟨below, above, proper₁, proper₂⟩
    exact enters_binary operator below above (h₁ proper₁) (h₂ proper₂).managed
  conditional := by
    rintro condition consequence alternative word opening closing h₁ h₂ h₃
      ⟨proper₁, proper₂, proper₃⟩
    refine enters_conditional word opening closing (h₁ proper₁).managed (h₂ proper₂) ?_
    rintro word body rfl
    exact h₃ word body rfl proper₃
  function word opening parameters closing h proper :=
    enters_function word opening parameters closing (h proper)
  call := by
    rintro callee arguments opening closing h₁ h₂ ⟨tight, proper₁, proper₂⟩
    refine enters_call opening closing tight (h₁ proper₁) fun list same argument member => ?_
    exact (h₂ list same argument member (proper₂.proper list same argument member)).managed
  block opening closing h proper :=
    block_managed opening closing
      (fun clause member => h clause member (ProperClauses.proper proper clause member)) proper
  gap _ _ _ permitted := permitted.elim
  clause _ _ h proper := clause_managed (h proper).managed

/-! ### Whole programs -/

theorem State.readsAll_managed (limit : Nat) {clauses : List (Clause noGaps)}
    (h : ∀ clause ∈ clauses, clause.Managed) (proper : ProperClauses clauses) {s : State}
    (top : s.nesting = 0) (tokens : s.tokens = clauseTokens clauses ++ []) (level : s.Level 0) :
    ∃ ws t, ReadsAll Fault.IsTooDeep limit s ws t ∧
      PrunedStatements ws (clauseTrees clauses) := by
  induction length : clauses.length using Nat.strongRecOn generalizing clauses s with
  | ind n ih =>
    cases clauses with
    | nil => exact ⟨[], s, readsAll_nil (State.current_of_nil tokens), .nil⟩
    | cons clause clauses =>
      obtain ⟨-, between, proper'⟩ := proper
      have notEnded := (current_clause tokens).2
      have h' := List.forall_mem_of_forall_mem_cons h
      have fewer : clauses.length < n := length ▸ Nat.lt_succ_self _
      obtain ⟨w, m, read, pruned, tokens', level'⟩ |
          ⟨fault, m, later, failed, deep, -, suffix, tokens', level'⟩ :=
        clause_step limit (h clause List.mem_cons_self) between State.closes_nil tokens level
      · obtain ⟨ws, t, read', pruned'⟩ :=
          ih _ fewer h' proper' (read.reaches.advance.nesting_eq.trans top) tokens' level' rfl
        exact ⟨w :: ws, t, readsAll_cons top notEnded read read', .keep pruned pruned'⟩
      · have resumed := (failed.reaches.note (.failed fault)).trans (synchronize_reaches _ 0)
        obtain ⟨ws, t, read', pruned'⟩ :=
          ih _ (Nat.lt_of_le_of_lt suffix.length_le fewer)
            (fun other member => h' other (suffix.mem member)) (proper'.of_suffix suffix)
            (resumed.advance.nesting_eq.trans top) tokens' level' rfl
        exact ⟨ws, t, readsAll_failed top notEnded failed deep read', pruned'.of_later suffix⟩

/-- With any limit, the tokens of a proper document are parsed with no other faults than those that
say that too many expressions are open, and the program is the tree of the document with some
statements left out. -/
theorem Parsed.ofTokens_pruned (limit : Nat) {document : Document noGaps}
    (proper : document.Proper) (finish : Location) :
    (∀ fault ∈ (ofTokens limit document.tokens finish).faults, fault.IsTooDeep) ∧
      (ofTokens limit document.tokens finish).program.PrunedFrom document.tree := by
  obtain ⟨ws, t, ⟨run, found, faults, all⟩, pruned⟩ :=
    State.readsAll_managed limit (fun clause member => hereditary_managed.each clause
        (ProperClauses.proper proper clause member)) proper
      (s := .ofTokens document.tokens finish) rfl (List.append_nil _).symm rfl
  have parsed : ofTokens limit document.tokens finish = ⟨⟨ws⟩, t.history⟩ := by
    rw [ofTokens, State.program, run]
  rw [parsed]
  refine ⟨?_, pruned⟩
  intro fault member
  rw [show Parsed.faults _ = t.faults from rfl, faults] at member
  exact all fault (by simpa [State.faults, State.history, State.ofTokens] using member)

/-- A fault that says that too many expressions are open says how many may be. -/
theorem Parsed.tooDeep_of_mem {limit : Nat} {tokens : List Token} {finish : Location}
    {fault : Fault} (member : fault ∈ (ofTokens limit tokens finish).faults)
    (deep : fault.IsTooDeep) : ∃ found, fault = .tooDeep limit found := by
  have dishonest : ¬fault.Honest := by
    obtain ⟨levels, token, rfl⟩ := deep
    exact id
  exact ⟨fault.token, (founded_ofTokens member).2.resolve_left dishonest⟩

/-- **The limit of nesting never changes what a text means.**  If no fault says that too many
expressions are open, then nothing changes with a higher limit.  And if with the higher limit there
is no fault at all, then with the lower one all faults say that too many expressions are open, and
the program is the same but for some statements that are left out, at top level and in blocks. -/
theorem Parsed.ofLexer_limit (source : String) {limit limit' : Nat} (more : limit ≤ limit') :
    ((∀ fault ∈ (ofLexer limit (.ofString source)).faults, ¬fault.IsTooDeep) →
        ofLexer limit' (.ofString source) = ofLexer limit (.ofString source)) ∧
      ((ofLexer limit' (.ofString source)).faults = [] →
        (∀ fault ∈ (ofLexer limit (.ofString source)).faults,
            ∃ found, fault = .tooDeep limit found) ∧
          (ofLexer limit (.ofString source)).program.PrunedFrom
            (ofLexer limit' (.ofString source)).program) := by
  refine ⟨fun shallow => ofTokens_of_shallow more shallow, fun clean => ?_⟩
  obtain ⟨document, tokens, tree, proper, -⟩ : ∃ document : Document noGaps, _ :=
    ofTokens_sound (Lexer.ofString source).kind_ne_of_mem_tokens clean
  obtain ⟨deep, pruned⟩ := ofTokens_pruned limit proper (Lexer.ofString source).finish
  rw [tokens] at deep pruned
  refine ⟨fun fault member => tooDeep_of_mem member (deep fault member), ?_⟩
  rw [tree] at pruned
  exact pruned

/-- In a block and at top level, a statement that is nested deeply, another one that no semicolon
sets apart from it, and a third one. -/
def deepText : String := "fn() \x7b let p = ((a)) b; c \x7d; !((d)) e; g"

/-- With one level less, the first statement is left out in both places and the second one with it;
and a text with another fault stays as it is. -/
theorem Parsed.ofLexer_limit_deepText :
    (ofLexer 4 (.ofString deepText)).faults = [] ∧
      (ofLexer 3 (.ofString deepText)).faults =
        [.tooDeep 3 ⟨.identifier, "a", ⟨1, 18⟩⟩, .tooDeep 3 ⟨.identifier, "d", ⟨1, 33⟩⟩] ∧
      (ofLexer 3 (.ofString deepText)).program.PrunedFrom
        (ofLexer 4 (.ofString deepText)).program ∧
      (ofLexer 3 (.ofString "let x 5; (a)")).faults =
        [.unexpected .assign ⟨.integer, "5", ⟨1, 7⟩⟩] ∧
      ofLexer 4 (.ofString "let x 5; (a)") = ofLexer 3 (.ofString "let x 5; (a)") := by
  have clean : (ofLexer 4 (.ofString deepText)).faults = [] := by decide +kernel
  have faults : (ofLexer 3 (.ofString deepText)).faults =
      [.tooDeep 3 ⟨.identifier, "a", ⟨1, 18⟩⟩, .tooDeep 3 ⟨.identifier, "d", ⟨1, 33⟩⟩] := by
    decide +kernel
  have faults' : (ofLexer 3 (.ofString "let x 5; (a)")).faults =
      [.unexpected .assign ⟨.integer, "5", ⟨1, 7⟩⟩] := by
    decide +kernel
  have shallow : ∀ fault ∈ (ofLexer 3 (.ofString "let x 5; (a)")).faults, ¬fault.IsTooDeep := by
    rw [faults']
    simp [Fault.IsTooDeep]
  have more : 3 ≤ 4 := by decide
  exact ⟨clean, faults, ((ofLexer_limit deepText more).2 clean).2, faults',
    (ofLexer_limit "let x 5; (a)" more).1 shallow⟩

end MonkeyLang
