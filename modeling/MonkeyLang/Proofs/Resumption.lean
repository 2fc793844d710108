import MonkeyLang.Proofs.Completeness
import MonkeyLang.Proofs.Isolation

/-!
# Where recovery goes on

A statement of a written text that is given up inside of its value does not take a piece of another
statement along.  Recovery passes over the rest of it, and if no semicolon ends the statement, over
the next one as well, until it comes to a semicolon or to the end of the block.  Behind that,
another statement of the same list begins, or the list has come to its end
(`State.synchronize_clauses`).

The reason is that what is left of a value is `Seamless`: outside of braces it has no semicolon, and
it closes no brace that it has not opened.  So there is no place in it at which a statement could be
taken to end.  That all values are of this kind is shown by induction on what is written
(`hereditary_seamless`).
-/

namespace MonkeyLang

/-! ### Stretches without a seam -/

/-- With so many braces open before them, the tokens close these and all that they open themselves,
and no others, and outside of all of them there is no semicolon. -/
def Seamless : Nat → List Token → Prop
  | opened, [] => opened = 0
  | opened, token :: tokens =>
    token.kind ≠ .endOfInput ∧
      (opened = 0 → token.kind ≠ .semicolon ∧ token.kind ≠ .rightBrace) ∧
      Seamless (braceStep opened token.kind) tokens

/-- The kinds of token that may stand anywhere in a stretch without a seam. -/
def Kind.IsInner : Kind → Prop
  | leftBrace | rightBrace | semicolon | endOfInput => False
  | _ => True

theorem Kind.IsInner.ne {kind : Kind} (h : kind.IsInner) :
    kind ≠ .endOfInput ∧ kind ≠ .semicolon ∧ kind.Plain := by
  refine ⟨?_, ?_, ?_, ?_⟩ <;> rintro rfl <;> exact h

theorem Kind.IsBinary.isInner {kind : Kind} (h : kind.IsBinary) : kind.IsInner := by
  cases kind <;> simp_all [IsBinary, IsInner]

namespace Seamless

variable {opened : Nat} {token : Token} {first second tokens : List Token}

theorem cons (inner : token.kind.IsInner) (h : Seamless opened tokens) :
    Seamless opened (token :: tokens) := by
  obtain ⟨notEnd, notSemicolon, plain⟩ := inner.ne
  refine ⟨notEnd, fun _ => ⟨notSemicolon, plain.2⟩, ?_⟩
  rwa [braceStep_plain plain]

/-- A token of a known kind. -/
theorem sign {kind : Kind} (sign : Sign kind) (inner : kind.IsInner) (h : Seamless opened tokens) :
    Seamless opened (sign.token :: tokens) :=
  h.cons (by rwa [sign.kind_eq])

theorem opening (sign : Sign .leftBrace) (h : Seamless (opened + 1) tokens) :
    Seamless opened (sign.token :: tokens) := by
  rw [Seamless, sign.kind_eq]
  exact ⟨by decide, fun _ => by decide, h⟩

theorem closing (sign : Sign .rightBrace) (h : Seamless opened tokens) :
    Seamless (opened + 1) (sign.token :: tokens) := by
  rw [Seamless, sign.kind_eq]
  exact ⟨by decide, fun outside => absurd outside (Nat.succ_ne_zero _), h⟩

/-- Between braces there may be a semicolon. -/
theorem semicolon (sign : Sign .semicolon) (h : Seamless (opened + 1) tokens) :
    Seamless (opened + 1) (sign.token :: tokens) := by
  rw [Seamless, sign.kind_eq]
  exact ⟨by decide, fun outside => absurd outside (Nat.succ_ne_zero _), h⟩

/-- Where a brace is closed, it was open. -/
theorem braceStep_add (h : Seamless opened (token :: tokens)) (depth : Nat) :
    braceStep (depth + opened) token.kind = depth + braceStep opened token.kind := by
  obtain ⟨-, outside, -⟩ := h
  unfold braceStep
  split
  · rfl
  · rename_i closes
    have positive : opened ≠ 0 := fun none => (outside none).2 closes
    omega
  · rfl

/-- A stretch in front that is closed in itself changes nothing for what follows. -/
theorem append (h₁ : Seamless 0 first) (h₂ : Seamless opened second) :
    Seamless opened (first ++ second) := by
  suffices general : ∀ n, Seamless n first → Seamless (opened + n) (first ++ second) from
    general 0 h₁
  clear h₁
  induction first with
  | nil =>
    rintro n rfl
    exact h₂
  | cons token first ih =>
    intro n h
    have ⟨notEnd, outside, later⟩ := h
    refine ⟨notEnd, fun none => outside (by omega), ?_⟩
    rw [h.braceStep_add]
    exact ih _ later

/-- Behind the tokens the braces before them are closed. -/
theorem openAfter (depth : Nat) (h : Seamless opened tokens) :
    openAfter (depth + opened) tokens = depth := by
  induction tokens generalizing opened with
  | nil =>
    obtain rfl : opened = 0 := h
    rfl
  | cons token tokens ih =>
    rw [openAfter_cons, h.braceStep_add]
    exact ih h.2.2

end Seamless

/-- The first tokens lead to the second over a stretch without a seam. -/
def Leads (tokens rest : List Token) : Prop :=
  ∃ between, tokens = between ++ rest ∧ Seamless 0 between

namespace Leads

variable {first tokens rest : List Token}

theorem refl (tokens : List Token) : Leads tokens tokens := ⟨[], rfl, rfl⟩

theorem append (seamless : Seamless 0 first) (h : Leads tokens rest) :
    Leads (first ++ tokens) rest := by
  obtain ⟨between, rfl, seamless'⟩ := h
  exact ⟨first ++ between, (List.append_assoc _ _ _).symm, seamless.append seamless'⟩

theorem cons {token : Token} (inner : token.kind.IsInner) (h : Leads tokens rest) :
    Leads (token :: tokens) rest := by
  have alone : Seamless 0 [token] := .cons inner rfl
  exact h.append alone

/-- A token of a known kind. -/
theorem sign {kind : Kind} (sign : Sign kind) (inner : kind.IsInner) (h : Leads tokens rest) :
    Leads (sign.token :: tokens) rest :=
  h.cons (by rwa [sign.kind_eq])

end Leads

/-! ### What is written has no seam -/

section
variable {tokens : List Token}

/-- Items without a seam, with commas between them. -/
theorem seamless_separated {β : Type} (tokens : β → List Token) {list : Separated β}
    (each : ∀ b ∈ list.items, Seamless 0 (tokens b)) : Seamless 0 (list.tokens tokens) := by
  induction list with
  | last b => exact each b (by simp [Separated.items])
  | more b comma later ih =>
    have first := each b (by simp [Separated.items])
    have others := ih fun other member => each other (by simp [Separated.items, member])
    exact first.append (.sign comma trivial others)

theorem seamless_parameterTokens (parameters : Option (Separated (Sign .identifier))) :
    Seamless 0 (parameterTokens parameters) := by
  cases parameters with
  | none => rfl
  | some names => exact seamless_separated Lexed.tokens fun name _ => .sign name trivial rfl

theorem seamless_alternativeTokens {alternative : Option (Sign .elseWord × Passage noGaps)}
    (h : ∀ word body, alternative = some (word, body) → Seamless 0 body.tokens) :
    Seamless 0 (alternativeTokens alternative) := by
  cases alternative with
  | none => rfl
  | some alternative => exact .sign alternative.1 trivial (h _ _ rfl)

theorem seamless_argumentTokens {arguments : Option (Separated (Phrase noGaps))}
    (h : ∀ list, arguments = some list →
      ∀ argument ∈ list.items, Seamless 0 argument.tokens) :
    Seamless 0 (argumentTokens arguments) := by
  cases arguments with
  | none => rfl
  | some list =>
    rw [argumentTokens, separatedTokens_eq]
    exact seamless_separated Phrase.tokens (h list rfl)

theorem seamless_lead (lead : Lead) (h : Seamless 0 tokens) :
    Seamless 0 (lead.tokens ++ tokens) := by
  cases lead with
  | binding word name assign =>
    exact .sign word trivial (.sign name trivial (.sign assign trivial h))
  | result word => exact .sign word trivial h
  | bare => exact h

/-- Between the braces of a block the statements may end. -/
theorem seamless_clauseTokens {clauses : List (Clause noGaps)}
    (each : ∀ clause ∈ clauses,
      ∀ tokens, Seamless 1 tokens → Seamless 1 (clause.tokens ++ tokens))
    (h : Seamless 1 tokens) : Seamless 1 (clauseTokens clauses ++ tokens) := by
  induction clauses with
  | nil => exact h
  | cons clause clauses ih =>
    rw [clauseTokens, List.append_assoc]
    exact each clause List.mem_cons_self _
      (ih fun other member => each other (List.mem_cons_of_mem _ member))

end

theorem hereditary_seamless :
    Hereditary (fun phrase : Phrase noGaps => Seamless 0 phrase.tokens)
      (fun passage => Seamless 0 passage.tokens)
      (fun clause => ∀ tokens, Seamless 1 tokens → Seamless 1 (clause.tokens ++ tokens)) where
  name word := .sign word trivial rfl
  numeral digits := .sign digits trivial rfl
  truth word := by
    have inner : word.token.kind.IsInner := by
      rcases Kind.isTruth_iff.1 word.kind with kind | kind <;> rw [kind] <;> trivial
    exact .cons inner rfl
  group opening closing h := .sign opening trivial (h.append (.sign closing trivial rfl))
  unary operator h := by
    have inner : operator.token.kind.IsInner := by
      rcases Kind.isUnary_iff.1 operator.kind with kind | kind <;> rw [kind] <;> trivial
    exact .cons inner h
  binary operator h₁ h₂ := h₁.append (.cons operator.kind.isInner h₂)
  conditional word opening closing h₁ h₂ h₃ :=
    .sign word trivial (.sign opening trivial
      (h₁.append (.sign closing trivial (h₂.append (seamless_alternativeTokens h₃)))))
  function word opening parameters closing h :=
    .sign word trivial (.sign opening trivial
      ((seamless_parameterTokens parameters).append (.sign closing trivial h)))
  call opening closing h₁ h₂ :=
    h₁.append (.sign opening trivial
      ((seamless_argumentTokens h₂).append (.sign closing trivial rfl)))
  block opening closing h :=
    .opening opening (seamless_clauseTokens h (.closing closing rfl))
  gap _ _ _ permitted := permitted.elim
  clause := by
    intro value lead semicolon h tokens later
    rw [Clause.tokens, ← List.append_assoc, List.append_assoc]
    refine (seamless_lead lead h).append ?_
    cases semicolon with
    | none => exact later
    | some sign => exact .semicolon sign later

/-- The tokens of a clause up to its semicolon. -/
def Clause.body : Clause noGaps → List Token
  | ⟨lead, value, _⟩ => lead.tokens ++ value.tokens

theorem Clause.seamless_body (clause : Clause noGaps) : Seamless 0 clause.body := by
  obtain ⟨lead, value, semicolon⟩ := clause
  exact seamless_lead lead (hereditary_seamless.phrase value)

theorem Clause.body_ne_nil (clause : Clause noGaps) : clause.body ≠ [] := by
  obtain ⟨lead, value, semicolon⟩ := clause
  obtain ⟨more, front⟩ := value.tokens_eq_cons
  rw [body, front]
  exact List.append_ne_nil_of_right_ne_nil _ (List.cons_ne_nil _ _)

/-- The semicolon of a clause, if it has one. -/
def Clause.ending (clause : Clause noGaps) : List Token :=
  (clause.semicolon.map Lexed.token).toList

theorem Clause.tokens_eq_body (clause : Clause noGaps) :
    clause.tokens = clause.body ++ clause.ending := by
  obtain ⟨lead, value, semicolon⟩ := clause
  rw [Clause.tokens, body, ending, List.append_assoc]
  rfl

theorem Clause.openAfter_tokens (clause : Clause noGaps) (depth : Nat) :
    openAfter depth clause.tokens = depth := by
  have body : openAfter depth clause.body = depth := clause.seamless_body.openAfter depth
  rw [clause.tokens_eq_body, openAfter_append, body, ending]
  cases clause.semicolon with
  | none => rfl
  | some sign =>
    show braceStep depth sign.token.kind = depth
    rw [sign.kind_eq]
    rfl

/-! ### The depth of braces on the way -/

namespace State

variable {s t : State} {depth : Nat} {tokens rest : List Token}

/-- So many braces are open before the current token. -/
def Level (depth : Nat) (s : State) : Prop := s.braceDepth = braceStep depth s.current.kind

theorem level_advance (counted : s.braceDepth = depth) : s.advance.Level depth := by
  subst counted
  rfl

/-- The braces between two positions have been counted. -/
theorem Level.reaches (level : s.Level depth) (moved : s.Reaches t)
    (passed : s.tokens = tokens ++ t.tokens) : t.Level (openAfter depth tokens) := by
  induction moved generalizing tokens with
  | refl =>
    obtain rfl : tokens = [] := List.append_left_eq_self.1 passed.symm
    exact level
  | @advance t moved ih =>
    cases ahead : t.tokens with
    | nil =>
      -- at the end of input there is nothing to count
      have ended : t.advance.tokens = [] := congrArg List.tail ahead
      have here : t.Level (openAfter depth tokens) := ih (by rw [passed, ended, ahead])
      have last := State.current_of_nil ended
      have last' := State.current_of_nil ahead
      rw [Level, last'] at here
      rw [Level, last, advance_braceDepth, ← advance_current, last]
      exact here
    | cons token more =>
      have behind : t.advance.tokens = more := congrArg List.tail ahead
      obtain ⟨before, here⟩ := moved.tokens_suffix
      have same : tokens = before ++ [token] := by
        rw [passed, behind, ahead] at here
        exact (List.append_cancel_right (by simpa using here)).symm
      have level := ih here.symm
      rw [same, openAfter_append]
      rw [Level, State.current_eq ahead] at level
      rw [Level, advance_braceDepth, advance_current, level]
      rfl
  | note event _ ih => exact ih passed

/-- Behind a clause as many braces are open as before it. -/
theorem Level.behind_clause {clause : Clause noGaps} (level : s.Level depth) (moved : s.Reaches t)
    (passed : s.tokens = clause.tokens ++ t.tokens) : t.Level depth := by
  have here := level.reaches moved passed
  rwa [clause.openAfter_tokens] at here

/-- At what is left of the body of a clause as many braces are open as before the clause. -/
theorem Level.inside_clause {clause : Clause noGaps} {left : List Token} (level : s.Level depth)
    (moved : s.Reaches t) (ahead : s.tokens = clause.tokens ++ rest)
    (ahead' : t.tokens = left ++ (clause.ending ++ rest)) (seamless : Seamless 0 left) :
    t.Level depth := by
  obtain ⟨front, passed⟩ := moved.tokens_suffix
  have body : front ++ left = clause.body := by
    rw [ahead', ahead, clause.tokens_eq_body, List.append_assoc, ← List.append_assoc] at passed
    exact List.append_cancel_right passed
  have whole : openAfter depth (front ++ left) = depth := by
    rw [body]
    exact clause.seamless_body.openAfter depth
  have later : openAfter (openAfter depth front) left = openAfter depth front :=
    seamless.openAfter _
  have here := level.reaches moved passed.symm
  rw [openAfter_append, later] at whole
  rwa [whole] at here

/-! ### Recovery -/

/-- Recovery passes over a stretch without a seam, up to its last token. -/
theorem synchronize_seamless {token : Token} {opened : Nat}
    (ahead : s.tokens = token :: (tokens ++ rest)) (counted : s.braceDepth = depth + opened)
    (notEnd : token.kind ≠ .endOfInput) (notOutside : opened = 0 → token.kind ≠ .semicolon)
    (seamless : Seamless opened tokens) :
    ∃ m : State, s.synchronize depth = m.synchronize depth ∧ m.tokens.tail = rest ∧
      m.braceDepth = depth ∧ m.current.kind ≠ .endOfInput ∧
      m.current.kind ≠ .semicolon := by
  induction tokens generalizing s token opened with
  | nil =>
    obtain rfl : opened = 0 := seamless
    refine ⟨s, rfl, congrArg List.tail ahead, counted, ?_, ?_⟩
    · rwa [current_eq ahead]
    · rw [current_eq ahead]
      exact notOutside rfl
  | cons next tokens ih =>
    have ⟨notEnd', outside, later⟩ := seamless
    have peek : s.peek = next := peek_eq (congrArg List.tail ahead)
    have notBoundary : ¬s.atBoundary depth := by
      have inside : s.braceDepth ≤ depth → opened = 0 := by omega
      simp only [atBoundary, current_eq ahead, peek, Bool.or_eq_true, Bool.and_eq_true,
        decide_eq_true_eq, not_or]
      refine ⟨⟨notEnd, notEnd'⟩, ?_⟩
      rintro ⟨low, semicolon | closes⟩
      · exact notOutside (inside low) semicolon
      · exact (outside (inside low)).2 closes
    rw [synchronize_of_not_boundary notBoundary]
    refine ih (congrArg List.tail ahead) ?_ notEnd' ?_ later
    · rw [advance_braceDepth, peek, counted, seamless.braceStep_add]
    · intro none semicolon
      rw [semicolon] at none
      exact (outside none).1 semicolon

/-- Behind a list of statements comes a closing brace or nothing at all. -/
def Closes (rest : List Token) : Prop :=
  ∀ token, rest.head? = some token → token.kind = .rightBrace

theorem closes_nil : Closes [] := by
  intro token head
  simp at head

theorem closes_brace (closing : Sign .rightBrace) (rest : List Token) :
    Closes (closing.token :: rest) := by
  rintro _ ⟨⟩
  exact closing.kind_eq

theorem Closes.ends (closes : Closes rest) : Ends rest := by
  cases rest with
  | nil => exact ends_nil
  | cons token rest => exact ends_brace ⟨token, closes token rfl⟩ rest

/-- Recovery passes over what is left of the body of a clause. -/
theorem synchronize_left {left : List Token} (seamless : Seamless 0 left) (nonempty : left ≠ [])
    (ahead : s.tokens = left ++ rest) (level : s.Level depth) :
    ∃ m : State, s.synchronize depth = m.synchronize depth ∧ m.tokens.tail = rest ∧
      m.braceDepth = depth ∧ m.current.kind ≠ .endOfInput ∧
      m.current.kind ≠ .semicolon := by
  obtain ⟨token, tokens, rfl⟩ := List.exists_cons_of_ne_nil nonempty
  have ⟨notEnd, outside, later⟩ := seamless
  refine synchronize_seamless ahead ?_ notEnd (fun _ => (outside rfl).1) later
  rw [level, current_eq ahead]
  exact seamless.braceStep_add depth

/-- Behind a statement that has ended, the position is that of its last token. -/
theorem synchronize_of_ended {m : State} (counted : m.braceDepth = depth)
    (ends : m.peek.kind = .endOfInput ∨ m.current.kind = .semicolon ∨
      m.peek.kind = .rightBrace) :
    m.synchronize depth = m := by
  apply synchronize_of_boundary
  rw [atBoundary, counted]
  rcases ends with kind | kind | kind <;> simp [kind]

theorem synchronize_of_continued {m : State} (notEnd : m.current.kind ≠ .endOfInput)
    (notSemicolon : m.current.kind ≠ .semicolon) (notEnd' : m.peek.kind ≠ .endOfInput)
    (notClosed : m.peek.kind ≠ .rightBrace) :
    m.synchronize depth = m.advance.synchronize depth := by
  apply synchronize_of_not_boundary
  simp [atBoundary, notEnd, notSemicolon, notEnd', notClosed]

/-- Recovery from inside of a clause leads to the end of a clause of the same list. -/
theorem synchronize_clauses {s : State} {clause : Clause noGaps} {clauses : List (Clause noGaps)}
    {left : List Token} (closes : Closes rest) (seamless : Seamless 0 left) (nonempty : left ≠ [])
    (ahead : s.tokens = left ++ (clause.ending ++ (clauseTokens clauses ++ rest)))
    (level : s.Level depth) :
    ∃ later, later <:+ clauses ∧
      (s.synchronize depth).tokens.tail = clauseTokens later ++ rest ∧
      (s.synchronize depth).braceDepth = depth := by
  obtain ⟨m, same, tail, counted, notEnd, notSemicolon⟩ :=
    synchronize_left seamless nonempty ahead level
  rw [same]
  cases written : clause.semicolon with
  | some sign =>
    rw [Clause.ending, written] at tail
    have tail : m.tokens.tail = sign.token :: (clauseTokens clauses ++ rest) := tail
    have peek : m.peek.kind = .semicolon := by rw [peek_eq tail, sign.kind_eq]
    have counted' : m.advance.braceDepth = depth := by
      rw [advance_braceDepth, peek]
      exact counted
    rw [synchronize_of_continued notEnd notSemicolon (by rw [peek]; decide) (by rw [peek]; decide),
      synchronize_of_ended counted' (.inr (.inl peek))]
    exact ⟨clauses, List.suffix_rfl, congrArg List.tail tail, counted'⟩
  | none =>
    rw [Clause.ending, written] at tail
    have tail : m.tokens.tail = clauseTokens clauses ++ rest := tail
    cases clauses with
    | nil =>
      have tail : m.tokens.tail = rest := tail
      have ended : m.peek.kind = .endOfInput ∨ m.peek.kind = .rightBrace := by
        cases rest with
        | nil => exact .inl (by simp [peek, tail, Token.endOfInput])
        | cons token more => exact .inr (by rw [peek_eq tail]; exact closes token rfl)
      rw [synchronize_of_ended counted (ended.imp_right .inr)]
      exact ⟨[], List.suffix_rfl, tail, counted⟩
    | cons next clauses =>
      -- the next clause begins here, and it is passed over like the rest of this one
      obtain ⟨token, more, front, starts⟩ := next.tokens_eq_cons
      have peek : m.peek = token := peek_eq (by rw [tail, clauseTokens, front]; rfl)
      rw [synchronize_of_continued notEnd notSemicolon (by rw [peek]; exact starts.ne.2)
        (by rw [peek]; exact starts.ne.1)]
      have ahead' : m.advance.tokens =
          next.body ++ (next.ending ++ (clauseTokens clauses ++ rest)) := by
        rw [advance_tokens, tail, clauseTokens, next.tokens_eq_body]
        simp only [List.append_assoc]
      have level' : m.advance.Level depth := level_advance counted
      obtain ⟨later, suffix, tail, counted⟩ :=
        synchronize_clauses closes next.seamless_body next.body_ne_nil ahead' level'
      exact ⟨later, suffix.trans (List.suffix_cons next clauses), tail, counted⟩

end State

end MonkeyLang
