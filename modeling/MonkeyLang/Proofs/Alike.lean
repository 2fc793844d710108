import MonkeyLang.Proofs.Braces
import MonkeyLang.Proofs.View

/-!
# Tokens that look alike

Two sequences of tokens are `Alike` if the one becomes the other when tokens are replaced by similar
ones, of the same kind and spelling, and when what stands between two matching braces is replaced by
anything else.  A document without gaps is then carried over (`Document.carried`): the second
sequence holds a document that looks like the first one, in which the blocks whose content has been
replaced are gaps.

Nothing has to be known of the parser for this.  What makes it work is that a brace can only be the
brace of a block, so that the content that is replaced is the whole content of a block.
-/

namespace MonkeyLang

/-- Tokens of the same kind and spelling that look the same, the one through the view `v` and the
other one through `v'`. -/
structure Similar (v v' : View) (token token' : Token) : Prop where
  kind : token'.kind = token.kind
  literal : token'.literal = token.literal
  node : v'.node token' = v.node token
  lead : v'.lead token' = v.lead token
  closed : v'.closed token' = v.closed token

/-- Tokens that are similar one by one, but for the content of some blocks. -/
inductive Alike (v v' : View) (gaps : GapRule) : List Token → List Token → Prop
  | nil : Alike v v' gaps [] []
  | cons {token token' : Token} {tokens tokens' : List Token}
      (similar : Similar v v' token token') (later : Alike v v' gaps tokens tokens') :
      Alike v v' gaps (token :: tokens) (token' :: tokens')
  | gap {opening opening' closing closing' : Token} {content content' rest rest' : List Token}
      (similar : Similar v v' opening opening') (opens : opening.kind = .leftBrace)
      (closes : closing.kind = .rightBrace) (closes' : closing'.kind = .rightBrace)
      (balanced : Balanced content) (hidden : v.closed opening = true)
      (permitted : gaps opening' content' closing') (later : Alike v v' gaps rest rest') :
      Alike v v' gaps (opening :: (content ++ closing :: rest))
        (opening' :: (content' ++ closing' :: rest'))

variable {v v' : View} {gaps : GapRule} {token : Token} {tokens rest tokens' : List Token}

namespace Alike

/-- A token that opens no block is replaced by a similar one. -/
theorem uncons (plain : token.kind ≠ .leftBrace) (h : Alike v v' gaps (token :: tokens) tokens') :
    ∃ token' later, tokens' = token' :: later ∧ Similar v v' token token' ∧
      Alike v v' gaps tokens later := by
  generalize same : token :: tokens = whole at h
  cases h with
  | nil => exact absurd same (by simp)
  | cons similar later =>
    obtain ⟨rfl, rfl⟩ := List.cons.inj same
    exact ⟨_, _, rfl, similar, later⟩
  | gap _ opens =>
    obtain ⟨rfl, -⟩ := List.cons.inj same
    exact absurd opens plain

/-- At an opening brace the block may be one whose content is replaced. -/
theorem uncons_leftBrace (h : Alike v v' gaps (token :: tokens) tokens') :
    (∃ token' later, tokens' = token' :: later ∧ Similar v v' token token' ∧
        Alike v v' gaps tokens later) ∨
      ∃ opening' content closing rest content' closing' rest',
        tokens = content ++ closing :: rest ∧
        tokens' = opening' :: (content' ++ closing' :: rest') ∧
        Similar v v' token opening' ∧ closing.kind = .rightBrace ∧ closing'.kind = .rightBrace ∧
        Balanced content ∧ v.closed token = true ∧ gaps opening' content' closing' ∧
        Alike v v' gaps rest rest' := by
  generalize same : token :: tokens = whole at h
  cases h with
  | nil => exact absurd same (by simp)
  | cons similar later =>
    obtain ⟨rfl, rfl⟩ := List.cons.inj same
    exact .inl ⟨_, _, rfl, similar, later⟩
  | gap similar _ closes closes' balanced hidden permitted later =>
    obtain ⟨rfl, rfl⟩ := List.cons.inj same
    exact .inr ⟨_, _, _, _, _, _, _, rfl, rfl, similar, closes, closes', balanced, hidden,
      permitted, later⟩

/-- A token of an allowed kind is replaced by one. -/
theorem lexed {allowed : Kind → Prop} (sign : Lexed allowed) (plain : ¬allowed .leftBrace)
    (h : Alike v v' gaps (sign.token :: tokens) tokens') :
    ∃ (sign' : Lexed allowed) (later : List Token), tokens' = sign'.token :: later ∧
      Similar v v' sign.token sign'.token ∧ Alike v v' gaps tokens later := by
  obtain ⟨token', later, rfl, similar, alike⟩ :=
    h.uncons fun kind => plain (kind ▸ sign.kind)
  exact ⟨⟨token', similar.kind ▸ sign.kind⟩, later, rfl, similar, alike⟩

end Alike

/-! ### What is carried over -/

section
variable (v v' : View)

/-- One phrase looks like another one and may stand in its place. -/
structure Phrase.Matches (phrase : Phrase noGaps) (phrase' : Phrase gaps) : Prop where
  view : phrase'.tree.view v' = phrase.tree.view v
  nesting : phrase'.nesting ≤ phrase.nesting
  strength : phrase'.strength = phrase.strength
  first : Similar v v' phrase.first phrase'.first
  proper : phrase.Proper → phrase'.Proper

structure Passage.Matches (passage : Passage noGaps) (passage' : Passage gaps) : Prop where
  view : passage'.tree.view v' = passage.tree.view v
  nesting : passage'.nesting ≤ passage.nesting
  proper : passage.Proper → passage'.Proper

structure Clause.Matches (clause : Clause noGaps) (clause' : Clause gaps) : Prop where
  view : clause'.tree.view v' = clause.tree.view v
  nesting : clause'.nesting ≤ clause.nesting
  semicolon : clause'.semicolon = none → clause.semicolon = none
  first : ∃ token more token' more', clause.tokens = token :: more ∧
    clause'.tokens = token' :: more' ∧ token'.kind = token.kind
  proper : clause.Proper → clause'.Proper

variable (gaps : GapRule)

/-- Wherever the tokens of the phrase are replaced by tokens alike, a matching phrase stands. -/
def Phrase.Carried (phrase : Phrase noGaps) : Prop :=
  ∀ ⦃rest tokens' : List Token⦄, Alike v v' gaps (phrase.tokens ++ rest) tokens' →
    ∃ (phrase' : Phrase gaps) (rest' : List Token), tokens' = phrase'.tokens ++ rest' ∧
      Alike v v' gaps rest rest' ∧ phrase.Matches v v' phrase'

def Passage.Carried (passage : Passage noGaps) : Prop :=
  ∀ ⦃rest tokens' : List Token⦄, Alike v v' gaps (passage.tokens ++ rest) tokens' →
    ∃ (passage' : Passage gaps) (rest' : List Token), tokens' = passage'.tokens ++ rest' ∧
      Alike v v' gaps rest rest' ∧ passage.Matches v v' passage'

def Clause.Carried (clause : Clause noGaps) : Prop :=
  ∀ ⦃rest tokens' : List Token⦄, Alike v v' gaps (clause.tokens ++ rest) tokens' →
    ∃ (clause' : Clause gaps) (rest' : List Token), tokens' = clause'.tokens ++ rest' ∧
      Alike v v' gaps rest rest' ∧ clause.Matches v v' clause'

end

/-! ### Operands -/

theorem Sign.identifier_view {name name' : Sign .identifier}
    (h : Similar v v' name.token name'.token) :
    name'.identifier.view v' = name.identifier.view v := by
  simp only [Identifier.view, Sign.identifier, h.node, h.literal]

theorem carried_name (word : Sign .identifier) :
    (Phrase.name word : Phrase noGaps).Carried v v' gaps := by
  intro rest tokens' alike
  obtain ⟨word', later, rfl, similar, alike⟩ := Alike.lexed word (by decide) alike
  refine ⟨.name word', later, rfl, alike, ?_, Nat.le_refl _, rfl, similar, fun _ => trivial⟩
  simp only [Phrase.tree, Expression.view, Sign.identifier_view similar]

theorem carried_numeral (digits : Sign .integer) :
    (Phrase.numeral digits : Phrase noGaps).Carried v v' gaps := by
  intro rest tokens' alike
  obtain ⟨digits', later, rfl, similar, alike⟩ := Alike.lexed digits (by decide) alike
  refine ⟨.numeral digits', later, rfl, alike, ?_, Nat.le_refl _, rfl, similar, ?_⟩
  · simp only [Phrase.tree, Expression.view, similar.node, similar.literal]
  · simp only [Phrase.Proper, similar.literal, imp_self]

theorem carried_truth (word : Lexed Kind.IsTruth) :
    (Phrase.truth word : Phrase noGaps).Carried v v' gaps := by
  intro rest tokens' alike
  obtain ⟨word', later, rfl, similar, alike⟩ := Alike.lexed word (fun h => h) alike
  refine ⟨.truth word', later, rfl, alike, ?_, Nat.le_refl _, rfl, similar, fun _ => trivial⟩
  simp only [Phrase.tree, Expression.view, similar.node, similar.kind]

theorem carried_group {inner : Phrase noGaps} (opening : Sign .leftParen)
    (closing : Sign .rightParen) (h : inner.Carried v v' gaps) :
    (Phrase.group opening inner closing).Carried v v' gaps := by
  intro rest tokens' alike
  rw [Phrase.tokens, List.cons_append, List.append_assoc] at alike
  obtain ⟨opening', later, rfl, first, alike⟩ := Alike.lexed opening (by decide) alike
  obtain ⟨inner', later, rfl, alike, same⟩ := h alike
  obtain ⟨closing', later, rfl, -, alike⟩ := Alike.lexed closing (by decide) alike
  refine ⟨.group opening' inner' closing', later, by simp [Phrase.tokens], alike, ?_, ?_, rfl,
    first, same.proper⟩
  · rw [Phrase.tree_group, Phrase.tree_group, same.view]
  · exact Nat.add_le_add_left same.nesting 1

theorem carried_unary {operand : Phrase noGaps} (operator : Lexed Kind.IsUnary)
    (h : operand.Carried v v' gaps) : (Phrase.unary operator operand).Carried v v' gaps := by
  intro rest tokens' alike
  obtain ⟨operator', later, rfl, first, alike⟩ := Alike.lexed operator (fun h => h) alike
  obtain ⟨operand', later, rfl, alike, same⟩ := h alike
  refine ⟨.unary operator' operand', later, rfl, alike, ?_, ?_, rfl, first, ?_⟩
  · simp only [Phrase.tree, Expression.view, same.view, first.node, first.literal]
  · exact Nat.add_le_add_left same.nesting 1
  · rintro ⟨tight, proper⟩
    exact ⟨same.strength ▸ tight, same.proper proper⟩

theorem carried_binary {left right : Phrase noGaps} (operator : Lexed Kind.IsBinary)
    (h₁ : left.Carried v v' gaps) (h₂ : right.Carried v v' gaps) :
    (Phrase.binary left operator right).Carried v v' gaps := by
  intro rest tokens' alike
  rw [Phrase.tokens, List.append_assoc] at alike
  obtain ⟨left', later, rfl, alike, same₁⟩ := h₁ alike
  obtain ⟨operator', later, rfl, similar, alike⟩ := Alike.lexed operator (fun h => h) alike
  obtain ⟨right', later, rfl, alike, same₂⟩ := h₂ alike
  refine ⟨.binary left' operator' right', later, by simp [Phrase.tokens], alike, ?_, ?_, ?_,
    same₁.first, ?_⟩
  · simp only [Phrase.tree, Expression.view, same₁.view, same₂.view, similar.node, similar.literal]
  · have := same₁.nesting
    have := same₂.nesting
    simp only [Phrase.nesting]
    omega
  · simp only [Phrase.strength, similar.kind]
  · simp only [Phrase.Proper, similar.kind, same₁.strength, same₂.strength]
    rintro ⟨below, above, proper₁, proper₂⟩
    exact ⟨below, above, same₁.proper proper₁, same₂.proper proper₂⟩

theorem alternative_carried {alternative : Option (Sign .elseWord × Passage noGaps)}
    (h : ∀ word body, alternative = some (word, body) → body.Carried v v' gaps)
    (alike : Alike v v' gaps (alternativeTokens alternative ++ rest) tokens') :
    ∃ (alternative' : Option (Sign .elseWord × Passage gaps)) (rest' : List Token),
      tokens' = alternativeTokens alternative' ++ rest' ∧ Alike v v' gaps rest rest' ∧
      alternativeView v' (alternativeTree alternative') =
        alternativeView v (alternativeTree alternative) ∧
      alternativeNesting alternative' ≤ alternativeNesting alternative ∧
      (ProperAlternative alternative → ProperAlternative alternative') := by
  cases alternative with
  | none => exact ⟨none, tokens', rfl, alike, rfl, Nat.le_refl _, fun _ => trivial⟩
  | some alternative =>
    obtain ⟨word, body⟩ := alternative
    have alike : Alike v v' gaps (word.token :: (body.tokens ++ rest)) tokens' := alike
    obtain ⟨word', later, rfl, -, alike⟩ := Alike.lexed word (by decide) alike
    obtain ⟨body', later, rfl, alike, same⟩ := h word body rfl alike
    refine ⟨some (word', body'), later, rfl, alike, ?_, same.nesting, same.proper⟩
    simp only [alternativeTree, alternativeView, same.view]

theorem carried_conditional {condition : Phrase noGaps} {consequence : Passage noGaps}
    {alternative : Option (Sign .elseWord × Passage noGaps)} (word : Sign .ifWord)
    (opening : Sign .leftParen) (closing : Sign .rightParen) (h₁ : condition.Carried v v' gaps)
    (h₂ : consequence.Carried v v' gaps)
    (h₃ : ∀ word body, alternative = some (word, body) → body.Carried v v' gaps) :
    (Phrase.conditional word opening condition closing consequence alternative).Carried
      v v' gaps := by
  intro rest tokens' alike
  have alike : Alike v v' gaps (word.token :: opening.token :: (condition.tokens ++ closing.token ::
      (consequence.tokens ++ (alternativeTokens alternative ++ rest)))) tokens' := by
    simpa [Phrase.tokens] using alike
  obtain ⟨word', later, rfl, first, alike⟩ := Alike.lexed word (by decide) alike
  obtain ⟨opening', later, rfl, -, alike⟩ := Alike.lexed opening (by decide) alike
  obtain ⟨condition', later, rfl, alike, same₁⟩ := h₁ alike
  obtain ⟨closing', later, rfl, -, alike⟩ := Alike.lexed closing (by decide) alike
  obtain ⟨consequence', later, rfl, alike, same₂⟩ := h₂ alike
  obtain ⟨alternative', later, rfl, alike, view, nesting, proper⟩ := alternative_carried h₃ alike
  refine ⟨.conditional word' opening' condition' closing' consequence' alternative', later,
    by simp [Phrase.tokens], alike, ?_, ?_, rfl, first, ?_⟩
  · simp only [Phrase.tree, Expression.view, same₁.view, same₂.view, view, first.node]
  · have := same₁.nesting
    have := same₂.nesting
    simp only [Phrase.nesting]
    omega
  · rintro ⟨proper₁, proper₂, proper₃⟩
    exact ⟨same₁.proper proper₁, same₂.proper proper₂, proper proper₃⟩

theorem names_carried {names : Separated (Sign .identifier)}
    (alike : Alike v v' gaps (names.tokens Lexed.tokens ++ rest) tokens') :
    ∃ (names' : Separated (Sign .identifier)) (rest' : List Token),
      tokens' = names'.tokens Lexed.tokens ++ rest' ∧ Alike v v' gaps rest rest' ∧
      (names'.items.map Sign.identifier).map (Identifier.view v') =
        (names.items.map Sign.identifier).map (Identifier.view v) := by
  induction names generalizing tokens' with
  | last name =>
    obtain ⟨name', later, rfl, similar, alike⟩ := Alike.lexed name (by decide) alike
    refine ⟨.last name', later, rfl, alike, ?_⟩
    exact congrArg (fun name => [name]) (Sign.identifier_view similar)
  | more name comma names ih =>
    obtain ⟨name', later, rfl, similar, alike⟩ := Alike.lexed name (by decide) alike
    obtain ⟨comma', later, rfl, -, alike⟩ := Alike.lexed comma (by decide) alike
    obtain ⟨names', later, rfl, alike, view⟩ := ih alike
    refine ⟨.more name' comma' names', later, rfl, alike, ?_⟩
    simp only [Separated.items, List.map_cons, view, Sign.identifier_view similar]

theorem parameters_carried {parameters : Option (Separated (Sign .identifier))}
    (alike : Alike v v' gaps (parameterTokens parameters ++ rest) tokens') :
    ∃ (parameters' : Option (Separated (Sign .identifier))) (rest' : List Token),
      tokens' = parameterTokens parameters' ++ rest' ∧ Alike v v' gaps rest rest' ∧
      (parameterNames parameters').map (Identifier.view v') =
        (parameterNames parameters).map (Identifier.view v) := by
  cases parameters with
  | none => exact ⟨none, tokens', rfl, alike, rfl⟩
  | some names =>
    obtain ⟨names', rest', tokens, alike, view⟩ := names_carried alike
    exact ⟨some names', rest', tokens, alike, view⟩

theorem carried_function {body : Passage noGaps} (word : Sign .functionWord)
    (opening : Sign .leftParen) (parameters : Option (Separated (Sign .identifier)))
    (closing : Sign .rightParen) (h : body.Carried v v' gaps) :
    (Phrase.function word opening parameters closing body).Carried v v' gaps := by
  intro rest tokens' alike
  have alike : Alike v v' gaps (word.token :: opening.token :: (parameterTokens parameters ++
      closing.token :: (body.tokens ++ rest))) tokens' := by
    simpa [Phrase.tokens] using alike
  obtain ⟨word', later, rfl, first, alike⟩ := Alike.lexed word (by decide) alike
  obtain ⟨opening', later, rfl, -, alike⟩ := Alike.lexed opening (by decide) alike
  obtain ⟨parameters', later, rfl, alike, view⟩ := parameters_carried alike
  obtain ⟨closing', later, rfl, -, alike⟩ := Alike.lexed closing (by decide) alike
  obtain ⟨body', later, rfl, alike, same⟩ := h alike
  refine ⟨.function word' opening' parameters' closing' body', later, by simp [Phrase.tokens],
    alike, ?_, ?_, rfl, first, same.proper⟩
  · simp only [Phrase.tree, Expression.view, same.view, view, first.node]
  · exact Nat.add_le_add_left same.nesting 1

/-! ### Calls -/

theorem separated_carried {list : Separated (Phrase noGaps)}
    (h : ∀ argument ∈ list.items, argument.Carried v v' gaps)
    (alike : Alike v v' gaps (separatedTokens list ++ rest) tokens') :
    ∃ (list' : Separated (Phrase gaps)) (rest' : List Token),
      tokens' = separatedTokens list' ++ rest' ∧ Alike v v' gaps rest rest' ∧
      argumentViews v' (separatedTrees list') = argumentViews v (separatedTrees list) ∧
      separatedNesting list' ≤ separatedNesting list ∧
      (ProperSeparated list → ProperSeparated list') := by
  induction list generalizing tokens' with
  | last phrase =>
    obtain ⟨phrase', later, rfl, alike, same⟩ := h phrase (by simp [Separated.items]) alike
    refine ⟨.last phrase', later, rfl, alike, ?_, same.nesting, same.proper⟩
    simp only [separatedTrees, argumentViews, same.view]
  | more phrase comma others ih =>
    rw [separatedTokens, List.append_assoc] at alike
    obtain ⟨phrase', later, rfl, alike, same⟩ := h phrase (by simp [Separated.items]) alike
    obtain ⟨comma', later, rfl, -, alike⟩ := Alike.lexed comma (by decide) alike
    obtain ⟨others', later, rfl, alike, view, nesting, proper⟩ :=
      ih (fun argument member => h argument (by simp [Separated.items, member])) alike
    refine ⟨.more phrase' comma' others', later, by simp [separatedTokens], alike, ?_, ?_, ?_⟩
    · simp only [separatedTrees, argumentViews, same.view, view]
    · have := same.nesting
      simp only [separatedNesting]
      omega
    · rintro ⟨proper₁, proper₂⟩
      exact ⟨same.proper proper₁, proper proper₂⟩

theorem arguments_carried {arguments : Option (Separated (Phrase noGaps))}
    (h : ∀ list, arguments = some list → ∀ argument ∈ list.items, argument.Carried v v' gaps)
    (alike : Alike v v' gaps (argumentTokens arguments ++ rest) tokens') :
    ∃ (arguments' : Option (Separated (Phrase gaps))) (rest' : List Token),
      tokens' = argumentTokens arguments' ++ rest' ∧ Alike v v' gaps rest rest' ∧
      argumentViews v' (argumentTrees arguments') = argumentViews v (argumentTrees arguments) ∧
      argumentNesting arguments' ≤ argumentNesting arguments ∧
      (ProperArguments arguments → ProperArguments arguments') := by
  cases arguments with
  | none => exact ⟨none, tokens', rfl, alike, rfl, Nat.le_refl _, fun _ => trivial⟩
  | some list =>
    obtain ⟨list', rest', tokens, alike, carried⟩ := separated_carried (h list rfl) alike
    exact ⟨some list', rest', tokens, alike, carried⟩

theorem carried_call {callee : Phrase noGaps} {arguments : Option (Separated (Phrase noGaps))}
    (opening : Sign .leftParen) (closing : Sign .rightParen)
    (h₁ : callee.Carried v v' gaps)
    (h₂ : ∀ list, arguments = some list → ∀ argument ∈ list.items, argument.Carried v v' gaps) :
    (Phrase.call callee opening arguments closing).Carried v v' gaps := by
  intro rest tokens' alike
  have alike : Alike v v' gaps (callee.tokens ++ opening.token :: (argumentTokens arguments ++
      closing.token :: rest)) tokens' := by
    simpa [Phrase.tokens] using alike
  obtain ⟨callee', later, rfl, alike, same⟩ := h₁ alike
  obtain ⟨opening', later, rfl, similar, alike⟩ := Alike.lexed opening (by decide) alike
  obtain ⟨arguments', later, rfl, alike, view, nesting, proper⟩ := arguments_carried h₂ alike
  obtain ⟨closing', later, rfl, -, alike⟩ := Alike.lexed closing (by decide) alike
  refine ⟨.call callee' opening' arguments' closing', later, by simp [Phrase.tokens], alike, ?_, ?_,
    rfl, same.first, ?_⟩
  · simp only [Phrase.tree, Expression.view, same.view, view, similar.node]
  · have := same.nesting
    simp only [Phrase.nesting]
    omega
  · rintro ⟨tight, proper₁, proper₂⟩
    exact ⟨same.strength ▸ tight, same.proper proper₁, proper proper₂⟩

/-! ### Statements and blocks -/

theorem semicolon_carried {semicolon : Option (Sign .semicolon)}
    (alike : Alike v v' gaps ((semicolon.map Lexed.token).toList ++ rest) tokens') :
    ∃ (semicolon' : Option (Sign .semicolon)) (rest' : List Token),
      tokens' = (semicolon'.map Lexed.token).toList ++ rest' ∧ Alike v v' gaps rest rest' ∧
      (semicolon' = none → semicolon = none) := by
  cases semicolon with
  | none => exact ⟨none, tokens', rfl, alike, fun _ => rfl⟩
  | some sign =>
    obtain ⟨sign', later, rfl, -, alike⟩ := Alike.lexed sign (by decide) alike
    exact ⟨some sign', later, rfl, alike, fun none => absurd none (by simp)⟩

/-- A bare expression begins with its first token. -/
theorem Clause.bare_tokens (value : Phrase gaps) (semicolon : Option (Sign .semicolon)) :
    ∃ more, (⟨.bare, value, semicolon⟩ : Clause gaps).tokens = value.first :: more := by
  obtain ⟨more, front⟩ := value.tokens_eq_cons
  exact ⟨more ++ (semicolon.map Lexed.token).toList, by rw [tokens, front]; rfl⟩

theorem clause_carried {lead : Lead} {value : Phrase noGaps}
    {semicolon : Option (Sign .semicolon)} (h : value.Carried v v' gaps) :
    (⟨lead, value, semicolon⟩ : Clause noGaps).Carried v v' gaps := by
  intro rest tokens' alike
  rw [Clause.tokens, List.append_assoc, List.append_assoc] at alike
  cases lead with
  | binding word name assign =>
    obtain ⟨word', later, rfl, first, alike⟩ := Alike.lexed word (by decide) alike
    obtain ⟨name', later, rfl, second, alike⟩ := Alike.lexed name (by decide) alike
    obtain ⟨assign', later, rfl, -, alike⟩ := Alike.lexed assign (by decide) alike
    obtain ⟨value', later, rfl, alike, same⟩ := h alike
    obtain ⟨semicolon', later, rfl, alike, none⟩ := semicolon_carried alike
    refine ⟨⟨.binding word' name' assign', value', semicolon'⟩, later,
      by simp [Clause.tokens, Lead.tokens], alike, ?_, same.nesting, none,
      ⟨_, _, _, _, rfl, rfl, first.kind⟩, same.proper⟩
    simp only [Clause.tree, Lead.statement, Statement.view, same.view, first.node,
      Sign.identifier_view second]
  | result word =>
    obtain ⟨word', later, rfl, first, alike⟩ := Alike.lexed word (by decide) alike
    obtain ⟨value', later, rfl, alike, same⟩ := h alike
    obtain ⟨semicolon', later, rfl, alike, none⟩ := semicolon_carried alike
    refine ⟨⟨.result word', value', semicolon'⟩, later, by simp [Clause.tokens, Lead.tokens],
      alike, ?_, same.nesting, none, ⟨_, _, _, _, rfl, rfl, first.kind⟩, same.proper⟩
    simp only [Clause.tree, Lead.statement, Statement.view, same.view, first.node]
  | bare =>
    obtain ⟨value', later, rfl, alike, same⟩ := h alike
    obtain ⟨semicolon', later, rfl, alike, none⟩ := semicolon_carried alike
    obtain ⟨more, front⟩ := Clause.bare_tokens value semicolon
    obtain ⟨more', front'⟩ := Clause.bare_tokens value' semicolon'
    refine ⟨⟨.bare, value', semicolon'⟩, later, by simp [Clause.tokens, Lead.tokens], alike, ?_,
      same.nesting, none, ⟨_, more, _, more', front, front', same.first.kind⟩, same.proper⟩
    simp only [Clause.tree, Lead.statement, Statement.view, same.view, same.first.lead]

theorem clauses_carried {clauses : List (Clause noGaps)}
    (h : ∀ clause ∈ clauses, clause.Carried v v' gaps)
    (alike : Alike v v' gaps (clauseTokens clauses ++ rest) tokens') :
    ∃ (clauses' : List (Clause gaps)) (rest' : List Token),
      tokens' = clauseTokens clauses' ++ rest' ∧ Alike v v' gaps rest rest' ∧
      statementViews v' (clauseTrees clauses') = statementViews v (clauseTrees clauses) ∧
      clauseNesting clauses' ≤ clauseNesting clauses ∧
      (EndsBefore (clauseTokens clauses) → EndsBefore (clauseTokens clauses')) ∧
      (ProperClauses clauses → ProperClauses clauses') := by
  induction clauses generalizing tokens' with
  | nil => exact ⟨[], tokens', rfl, alike, rfl, Nat.le_refl _, fun h => h, fun _ => trivial⟩
  | cons clause clauses ih =>
    rw [clauseTokens, List.append_assoc] at alike
    obtain ⟨clause', later, rfl, alike, same⟩ := h clause List.mem_cons_self alike
    obtain ⟨clauses', later, rfl, alike, view, nesting, ends, proper⟩ :=
      ih (fun clause member => h clause (List.mem_cons_of_mem _ member)) alike
    refine ⟨clause' :: clauses', later, by simp [clauseTokens], alike, ?_, ?_, ?_, ?_⟩
    · simp only [clauseTrees, statementViews, same.view, view]
    · have := same.nesting
      simp only [clauseNesting]
      omega
    · obtain ⟨token, more, token', more', front, front', kind⟩ := same.first
      simp only [clauseTokens, front, front', List.cons_append, EndsBefore, List.head?_cons]
      rintro before _ ⟨⟩
      exact kind ▸ before token rfl
    · rintro ⟨proper₁, between, proper₂⟩
      exact ⟨same.proper proper₁, fun none => ends (between (same.semicolon none)), proper proper₂⟩

/-- The content of a block may be carried over, or it may be replaced as a whole. -/
theorem carried_block {clauses : List (Clause noGaps)} (opening : Sign .leftBrace)
    (closing : Sign .rightBrace) (h : ∀ clause ∈ clauses, clause.Carried v v' gaps) :
    (Passage.block opening clauses closing).Carried v v' gaps := by
  intro rest tokens' alike
  have alike : Alike v v' gaps
      (opening.token :: (clauseTokens clauses ++ closing.token :: rest)) tokens' := by
    simpa [Passage.tokens] using alike
  obtain ⟨token', later, rfl, first, alike⟩ | ⟨token', content, brace, others, content', brace',
    others', split, rfl, first, closes, closes', balanced, hidden, permitted, alike⟩ :=
      alike.uncons_leftBrace
  · -- the block keeps its content
    obtain ⟨clauses', later, rfl, alike, view, nesting, -, proper⟩ := clauses_carried h alike
    obtain ⟨closing', later, rfl, -, alike⟩ := Alike.lexed closing (by decide) alike
    refine ⟨.block ⟨token', first.kind.trans opening.kind_eq⟩ clauses' closing', later,
      by simp [Passage.tokens], alike, ?_, nesting, proper⟩
    simp only [Passage.tree, Block.view, first.node, first.closed, view]
  · -- what is replaced ends at the brace that matches the first one, so it is the whole content
    obtain ⟨rfl, -, rfl⟩ :=
      (balanced_clauseTokens clauses).unique balanced closing.kind_eq closes split
    refine ⟨.gap ⟨token', first.kind.trans opening.kind_eq⟩ content' ⟨brace', closes'⟩ permitted,
      others', by simp [Passage.tokens], alike, ?_, Nat.zero_le _, fun _ => trivial⟩
    simp [Passage.tree, Block.view, first.node, first.closed, hidden]

/-! ### By induction on what is written -/

/-- All that is written without gaps is carried over. -/
theorem hereditary_carried :
    Hereditary (Phrase.Carried v v' gaps) (Passage.Carried v v' gaps)
      (Clause.Carried v v' gaps) where
  name := carried_name
  numeral := carried_numeral
  truth := carried_truth
  group := carried_group
  unary := carried_unary
  binary := carried_binary
  conditional := carried_conditional
  function := carried_function
  call := carried_call
  block := carried_block
  gap _ _ _ permitted := permitted.elim
  clause _ _ h := clause_carried h

theorem Alike.eq_nil (h : Alike v v' gaps [] tokens') : tokens' = [] := by
  cases h
  rfl

/-- Tokens that look like those of a proper document are those of a proper document that looks the
same, and which is nested no deeper. -/
theorem Document.carried (document : Document noGaps)
    (alike : Alike v v' gaps document.tokens tokens') :
    ∃ document' : Document gaps, document'.tokens = tokens' ∧
      document'.tree.view v' = document.tree.view v ∧ document'.nesting ≤ document.nesting ∧
      (document.Proper → document'.Proper) := by
  have alike : Alike v v' gaps (clauseTokens document.clauses ++ []) tokens' := by
    rwa [List.append_nil]
  obtain ⟨clauses', rest', rfl, ended, view, nesting, -, proper⟩ :=
    clauses_carried (hereditary_carried.clauses document.clauses) alike
  refine ⟨⟨clauses'⟩, ?_, congrArg Program.mk view, nesting, proper⟩
  rw [ended.eq_nil, List.append_nil]
  rfl

end MonkeyLang
