import MonkeyLang.Proofs.Phrase

/-!
# Matching braces

A sequence of tokens is `Balanced` if it closes the braces that it opens and no others.  The text
between two braces that match each other is of this kind, and it is found by counting:
`depthAfter?` walks over the tokens with the number of open braces in hand and fails when a brace
is closed that is not open.  `balanced_iff` says that the walk decides balance.

From the walk it is plain that the brace that matches a given one is unique (`Balanced.unique`), and
everything that is written in the language turns out to be balanced (`Phrase.depthAfter?_tokens`
and its companions).
-/

namespace MonkeyLang

/-- How many of the tokens are of a given kind. -/
def countKind (kind : Kind) (tokens : List Token) : Nat :=
  tokens.countP fun token => token.kind = kind

/-- No beginning has more closing than opening braces, and there are as many of both in all. -/
def Balanced (tokens : List Token) : Prop :=
  (∀ first, first <+: tokens → countKind .rightBrace first ≤ countKind .leftBrace first) ∧
    countKind .leftBrace tokens = countKind .rightBrace tokens

/-! ### The walk -/

/-- How many braces are open behind the tokens, if so many are open before them and none is closed
that is not open. -/
def depthAfter? (depth : Nat) : List Token → Option Nat
  | [] => some depth
  | token :: tokens =>
    match token.kind with
    | .leftBrace => depthAfter? (depth + 1) tokens
    | .rightBrace => if depth = 0 then none else depthAfter? (depth - 1) tokens
    | _ => depthAfter? depth tokens

variable {depth final : Nat} {token : Token} {tokens : List Token}

theorem depthAfter?_leftBrace (h : token.kind = .leftBrace) :
    depthAfter? depth (token :: tokens) = depthAfter? (depth + 1) tokens := by
  simp [depthAfter?, h]

theorem depthAfter?_rightBrace (h : token.kind = .rightBrace) :
    depthAfter? (depth + 1) (token :: tokens) = depthAfter? depth tokens := by
  simp [depthAfter?, h]

theorem depthAfter?_rightBrace_zero (h : token.kind = .rightBrace) :
    depthAfter? 0 (token :: tokens) = none := by
  simp [depthAfter?, h]

theorem depthAfter?_plain (h : token.kind ≠ .leftBrace) (h' : token.kind ≠ .rightBrace) :
    depthAfter? depth (token :: tokens) = depthAfter? depth tokens := by
  rw [depthAfter?]
  split
  · exact absurd (by assumption) h
  · exact absurd (by assumption) h'
  · rfl

/-- Walking over two stretches is walking over the first and then over the second. -/
theorem depthAfter?_append (first second : List Token) :
    depthAfter? depth (first ++ second) =
      (depthAfter? depth first).bind (depthAfter? · second) := by
  induction first generalizing depth with
  | nil => rfl
  | cons token first ih =>
    by_cases opens : token.kind = .leftBrace
    · rw [List.cons_append, depthAfter?_leftBrace opens, depthAfter?_leftBrace opens, ih]
    by_cases closes : token.kind = .rightBrace
    · cases depth with
      | zero =>
        rw [List.cons_append, depthAfter?_rightBrace_zero closes,
          depthAfter?_rightBrace_zero closes]
        rfl
      | succ depth =>
        rw [List.cons_append, depthAfter?_rightBrace closes, depthAfter?_rightBrace closes, ih]
    · rw [List.cons_append, depthAfter?_plain opens closes, depthAfter?_plain opens closes, ih]

/-- The walk succeeds if no beginning closes more than is open, and it counts right. -/
theorem depthAfter?_eq_some_iff :
    depthAfter? depth tokens = some final ↔
      (∀ first, first <+: tokens →
          countKind .rightBrace first ≤ depth + countKind .leftBrace first) ∧
        depth + countKind .leftBrace tokens = final + countKind .rightBrace tokens := by
  induction tokens generalizing depth with
  | nil => simp [depthAfter?, countKind, List.prefix_nil]
  | cons token tokens ih =>
    -- a beginning is empty, or it is the first token and a beginning of the others
    have beginnings {p : List Token → Prop} (empty : p []) :
        (∀ first, first <+: token :: tokens → p first) ↔
          ∀ first, first <+: tokens → p (token :: first) := by
      constructor
      · intro h first begins
        exact h _ ((List.prefix_cons_inj token).2 begins)
      · intro h first begins
        rcases List.prefix_cons_iff.1 begins with rfl | ⟨later, rfl, isFirst⟩
        · exact empty
        · exact h later isFirst
    rw [beginnings (by simp [countKind])]
    by_cases opens : token.kind = .leftBrace
    · have notCloses : token.kind ≠ .rightBrace := by rw [opens]; decide
      rw [depthAfter?_leftBrace opens, ih]
      simp [countKind, opens, Nat.add_assoc, Nat.add_comm 1]
    by_cases closes : token.kind = .rightBrace
    · cases depth with
      | zero =>
        rw [depthAfter?_rightBrace_zero closes]
        simp only [countKind, List.countP_cons, closes, reduceCtorEq, false_iff, not_and]
        intro h
        exact absurd (h [] List.nil_prefix) (by simp)
      | succ depth =>
        rw [depthAfter?_rightBrace closes, ih]
        simp [countKind, closes]
        grind
    · rw [depthAfter?_plain opens closes, ih]
      simp [countKind, opens, closes]

theorem balanced_iff : Balanced tokens ↔ depthAfter? 0 tokens = some 0 := by
  rw [depthAfter?_eq_some_iff]
  simp [Balanced]

/-- The closing brace that ends a balanced stretch is unique. -/
theorem Balanced.unique {first second : List Token} {closing closing' : Token}
    {rest rest' : List Token} (h₁ : Balanced first) (h₂ : Balanced second)
    (kind : closing.kind = .rightBrace) (kind' : closing'.kind = .rightBrace)
    (same : first ++ closing :: rest = second ++ closing' :: rest') :
    first = second ∧ closing = closing' ∧ rest = rest' := by
  -- a longer stretch would close a brace that is not open
  have stops {stretch : List Token} {brace : Token} {more : List Token} (h : Balanced stretch)
      (kind : brace.kind = .rightBrace) : ¬Balanced (stretch ++ brace :: more) := by
    intro longer
    rw [balanced_iff, depthAfter?_append, balanced_iff.1 h, Option.bind_some,
      depthAfter?_rightBrace_zero kind] at longer
    exact absurd longer (by simp)
  rcases List.append_eq_append_iff.1 same with ⟨between, rfl, rest_eq⟩ | ⟨between, rfl, rest_eq⟩
  · cases between with
    | nil => simpa using rest_eq
    | cons brace more =>
      obtain ⟨rfl, -⟩ := List.cons.inj rest_eq
      exact absurd h₂ (stops h₁ kind)
  · cases between with
    | nil => simpa [eq_comm] using rest_eq
    | cons brace more =>
      obtain ⟨rfl, -⟩ := List.cons.inj rest_eq
      exact absurd h₁ (stops h₂ kind')

/-! ### What is written is balanced -/

theorem depthAfter?_sign {kind : Kind} (sign : Sign kind) (h : kind ≠ .leftBrace)
    (h' : kind ≠ .rightBrace) :
    depthAfter? depth (sign.token :: tokens) = depthAfter? depth tokens :=
  depthAfter?_plain (by rwa [sign.kind_eq]) (by rwa [sign.kind_eq])

/-- A stretch between parentheses, braces or commas leaves the depth as it is. -/
theorem depthAfter?_append_of_eq {first second : List Token}
    (h : depthAfter? depth first = some depth) :
    depthAfter? depth (first ++ second) = depthAfter? depth second := by
  rw [depthAfter?_append, h, Option.bind_some]

theorem depthAfter?_parameterTokens (parameters : Option (Separated (Sign .identifier)))
    (depth : Nat) : depthAfter? depth (parameterTokens parameters) = some depth := by
  cases parameters with
  | none => rfl
  | some names =>
    show depthAfter? depth (names.tokens Lexed.tokens) = some depth
    induction names with
    | last name => exact depthAfter?_sign name (by decide) (by decide)
    | more name comma later ih =>
      show depthAfter? depth (name.token :: comma.token :: later.tokens Lexed.tokens) = some depth
      rw [depthAfter?_sign name (by decide) (by decide),
        depthAfter?_sign comma (by decide) (by decide), ih]

theorem depthAfter?_lead (lead : Lead) :
    depthAfter? depth (lead.tokens ++ tokens) = depthAfter? depth tokens := by
  cases lead with
  | binding word name assign =>
    show depthAfter? depth (word.token :: name.token :: assign.token :: tokens) = _
    rw [depthAfter?_sign word (by decide) (by decide),
      depthAfter?_sign name (by decide) (by decide),
      depthAfter?_sign assign (by decide) (by decide)]
  | result word => exact depthAfter?_sign word (by decide) (by decide)
  | bare => rfl

mutual

theorem Phrase.depthAfter?_tokens : ∀ (phrase : Phrase noGaps) (depth : Nat),
    depthAfter? depth phrase.tokens = some depth
  | .name word, depth => depthAfter?_sign word (by decide) (by decide)
  | .numeral digits, depth => depthAfter?_sign digits (by decide) (by decide)
  | .truth word, depth => by
    rcases Kind.isTruth_iff.1 word.kind with kind | kind <;>
      exact depthAfter?_plain (by rw [kind]; decide) (by rw [kind]; decide)
  | .group opening inner closing, depth => by
    rw [Phrase.tokens, depthAfter?_sign opening (by decide) (by decide),
      depthAfter?_append_of_eq (inner.depthAfter?_tokens depth)]
    exact depthAfter?_sign closing (by decide) (by decide)
  | .unary operator operand, depth => by
    have plain : operator.token.kind ≠ .leftBrace ∧ operator.token.kind ≠ .rightBrace := by
      rcases Kind.isUnary_iff.1 operator.kind with kind | kind <;> rw [kind] <;> decide
    rw [Phrase.tokens, depthAfter?_plain plain.1 plain.2, operand.depthAfter?_tokens]
  | .binary left operator right, depth => by
    have plain : operator.token.kind ≠ .leftBrace ∧ operator.token.kind ≠ .rightBrace := by
      constructor <;> intro kind <;> simpa [kind, Kind.IsBinary] using operator.kind
    rw [Phrase.tokens, depthAfter?_append_of_eq (left.depthAfter?_tokens depth),
      depthAfter?_plain plain.1 plain.2, right.depthAfter?_tokens]
  | .conditional word opening condition closing consequence alternative, depth => by
    rw [Phrase.tokens, depthAfter?_sign word (by decide) (by decide),
      depthAfter?_sign opening (by decide) (by decide),
      depthAfter?_append_of_eq (condition.depthAfter?_tokens depth),
      depthAfter?_sign closing (by decide) (by decide),
      depthAfter?_append_of_eq (consequence.depthAfter?_tokens depth),
      depthAfter?_alternativeTokens alternative]
  | .function word opening parameters closing body, depth => by
    rw [Phrase.tokens, depthAfter?_sign word (by decide) (by decide),
      depthAfter?_sign opening (by decide) (by decide),
      depthAfter?_append_of_eq (depthAfter?_parameterTokens parameters depth),
      depthAfter?_sign closing (by decide) (by decide), body.depthAfter?_tokens]
  | .call callee opening arguments closing, depth => by
    rw [Phrase.tokens, depthAfter?_append_of_eq (callee.depthAfter?_tokens depth),
      depthAfter?_sign opening (by decide) (by decide),
      depthAfter?_append_of_eq (depthAfter?_argumentTokens arguments depth)]
    exact depthAfter?_sign closing (by decide) (by decide)

theorem Passage.depthAfter?_tokens : ∀ (passage : Passage noGaps) (depth : Nat),
    depthAfter? depth passage.tokens = some depth
  | .block opening clauses closing, depth => by
    rw [Passage.tokens, depthAfter?_leftBrace opening.kind_eq,
      depthAfter?_append_of_eq (depthAfter?_clauseTokens clauses (depth + 1)),
      depthAfter?_rightBrace closing.kind_eq]
    rfl
  | .gap _ _ _ permitted, _ => permitted.elim

theorem Clause.depthAfter?_tokens : ∀ (clause : Clause noGaps) (depth : Nat),
    depthAfter? depth clause.tokens = some depth
  | ⟨lead, value, semicolon⟩, depth => by
    rw [Clause.tokens, depthAfter?_lead, depthAfter?_append_of_eq (value.depthAfter?_tokens depth)]
    cases semicolon with
    | none => rfl
    | some semicolon => exact depthAfter?_sign semicolon (by decide) (by decide)

theorem depthAfter?_alternativeTokens :
    ∀ (alternative : Option (Sign .elseWord × Passage noGaps)) (depth : Nat),
      depthAfter? depth (alternativeTokens alternative) = some depth
  | none, _ => rfl
  | some (word, body), depth => by
    rw [alternativeTokens, depthAfter?_sign word (by decide) (by decide),
      body.depthAfter?_tokens]

theorem depthAfter?_argumentTokens :
    ∀ (arguments : Option (Separated (Phrase noGaps))) (depth : Nat),
      depthAfter? depth (argumentTokens arguments) = some depth
  | none, _ => rfl
  | some arguments, depth => by
    rw [argumentTokens, depthAfter?_separatedTokens arguments]

theorem depthAfter?_separatedTokens :
    ∀ (arguments : Separated (Phrase noGaps)) (depth : Nat),
      depthAfter? depth (separatedTokens arguments) = some depth
  | .last phrase, depth => by rw [separatedTokens, phrase.depthAfter?_tokens]
  | .more phrase comma later, depth => by
    rw [separatedTokens, depthAfter?_append_of_eq (phrase.depthAfter?_tokens depth),
      depthAfter?_sign comma (by decide) (by decide), depthAfter?_separatedTokens later]

theorem depthAfter?_clauseTokens : ∀ (clauses : List (Clause noGaps)) (depth : Nat),
    depthAfter? depth (clauseTokens clauses) = some depth
  | [], _ => rfl
  | first :: later, depth => by
    rw [clauseTokens, depthAfter?_append_of_eq (first.depthAfter?_tokens depth),
      depthAfter?_clauseTokens later]

end

/-- The statements of a block are balanced. -/
theorem balanced_clauseTokens (clauses : List (Clause noGaps)) : Balanced (clauseTokens clauses) :=
  balanced_iff.2 (depthAfter?_clauseTokens clauses 0)

end MonkeyLang
