import MonkeyLang.Proofs.Alike
import MonkeyLang.Proofs.Completeness
import MonkeyLang.Proofs.Containment
import MonkeyLang.Proofs.Soundness

/-!
# Faults do not leave their block

If the content of a block in a faultless text is replaced by anything with balanced braces, then the
program stays the same but for the statements of that block, and all faults are found behind the
opening brace and not behind the closing one (`faults_contained`).

The proof puts together what is known of the parser.  The tokens of the faultless text are those of
a document (`Parsed.ofTokens_sound`).  The tokens of the edited text hold a document that looks the
same and has a gap in place of the block (`Document.carried`).  The block parser gets through the
gap (`Parser.block_contained`), so what is written around it is read (`Parsed.ofTokens_complete`).
-/

namespace MonkeyLang

/-! ### Tokens stand in order -/

namespace Lexer

variable {lexer : Lexer}

theorem nextToken_location (h : lexer.nextToken.1.kind ≠ .endOfInput) :
    lexer.location ≤ lexer.nextToken.1.location ∧
      lexer.nextToken.1.location < lexer.nextToken.2.location := by
  cases ahead : lexer.rest.dropWhile isSpace with
  | nil => simp [nextToken_of_blank ahead, Token.endOfInput] at h
  | cons c rest =>
    rw [nextToken_of_ahead ahead]
    exact ⟨Location.le_after _ _, Location.lt_after _ (Lexeme.first_text_ne_nil c rest)⟩

/-- No token stands before the place from which the lexer reads. -/
theorem location_le_of_mem (lexer : Lexer) :
    ∀ token ∈ lexer.tokens, lexer.location ≤ token.location := by
  fun_induction Lexer.tokens lexer with
  | case1 => simp
  | case2 lexer step notEnded ih =>
    obtain ⟨le, lt⟩ := nextToken_location notEnded
    intro token member
    rcases List.mem_cons.1 member with rfl | member
    · exact le
    · exact .inl (Location.lt_of_le_of_lt le (Location.lt_of_lt_of_le lt (ih token member)))

/-- Every token stands before the tokens behind it. -/
theorem tokens_pairwise (lexer : Lexer) :
    lexer.tokens.Pairwise fun first second => first.location < second.location := by
  fun_induction Lexer.tokens lexer with
  | case1 => exact .nil
  | case2 lexer step notEnded ih =>
    refine .cons (fun token member => ?_) ih
    exact Location.lt_of_lt_of_le (nextToken_location notEnded).2
      (step.2.location_le_of_mem token member)

end Lexer

/-! ### Replacing the content of a block -/

/-- The view in which places are blurred, and the statements of the block that is opened at a
certain place are hidden. -/
def View.without (place : Location) : View :=
  ⟨Token.spelling, Token.spelling, fun token => decide (token.location = place)⟩

/-- Tokens of the same spelling look the same but for the block. -/
theorem similar_without {place place' : Location} {token token' : Token}
    (spelling : token'.spelling = token.spelling)
    (same : token'.location = place' ↔ token.location = place) :
    Similar (.without place) (.without place') token token' := by
  obtain ⟨kind, literal⟩ := Token.spelling_eq_iff.1 spelling
  exact ⟨kind, literal, spelling, spelling, by simp [View.without, same]⟩

theorem alike_without {place place' : Location} {gaps : GapRule}
    {first first' tokens tokens' : List Token}
    (spelling : first'.map Token.spelling = first.map Token.spelling)
    (elsewhere : ∀ token ∈ first, token.location ≠ place)
    (elsewhere' : ∀ token ∈ first', token.location ≠ place')
    (later : Alike (.without place) (.without place') gaps tokens tokens') :
    Alike (.without place) (.without place') gaps (first ++ tokens) (first' ++ tokens') := by
  induction first generalizing first' with
  | nil =>
    obtain rfl : first' = [] := by simpa using spelling
    exact later
  | cons token first ih =>
    cases first' with
    | nil => simp at spelling
    | cons token' first' =>
      obtain ⟨head, spelling⟩ := List.cons.inj spelling
      obtain ⟨here, elsewhere⟩ := List.forall_mem_cons.1 elsewhere
      obtain ⟨here', elsewhere'⟩ := List.forall_mem_cons.1 elsewhere'
      refine .cons (similar_without head ?_) (ih spelling elsewhere elsewhere')
      exact iff_of_false here' here

/-- In a sequence of tokens in order, a certain one stands nowhere else. -/
theorem location_ne_of_pairwise {before behind : List Token} {token : Token}
    (order : (before ++ token :: behind).Pairwise fun first second =>
      first.location < second.location) :
    (∀ other ∈ before, other.location ≠ token.location) ∧
      (∀ other ∈ behind, token.location < other.location) := by
  obtain ⟨-, order, across⟩ := List.pairwise_append.1 order
  refine ⟨fun other member same => ?_, (List.pairwise_cons.1 order).1⟩
  have lt := across other member token List.mem_cons_self
  exact Location.lt_irrefl _ (same ▸ lt)

/-- The tokens between two braces in order stand between them. -/
theorem location_between_of_pairwise {before content behind : List Token}
    {opening closing : Token}
    (order : (before ++ opening :: (content ++ closing :: behind)).Pairwise fun first second =>
      first.location < second.location) :
    ∀ token ∈ content ++ [closing],
      opening.location < token.location ∧ token.location ≤ closing.location := by
  obtain ⟨-, order, -⟩ := List.pairwise_append.1 order
  obtain ⟨first, order⟩ := List.pairwise_cons.1 order
  obtain ⟨-, -, across⟩ := List.pairwise_append.1 order
  intro token member
  rcases List.mem_append.1 member with member | member
  · exact ⟨first token (List.mem_append_left _ member),
      .inl (across token member closing List.mem_cons_self)⟩
  · obtain rfl := List.mem_singleton.1 member
    exact ⟨first token (by simp), Location.le_refl _⟩

/-- Just the one block may be left open. -/
def onlyGap (opening : Token) (content : List Token) (closing : Token) : GapRule :=
  fun opening' content' closing' => opening' = opening ∧ content' = content ∧ closing' = closing

/-- The parser gets through a gap with balanced content, and all faults are found in it. -/
theorem fills_onlyGap {opening closing : Token} {content : List Token} {v : View}
    (closes : closing.kind = .rightBrace) (balanced : Balanced content)
    (notEnded : ∀ token ∈ content, token.kind ≠ .endOfInput) (hidden : v.closed opening = true) :
    Fills (onlyGap opening content closing) (fun fault => fault.token ∈ content ++ [closing])
      v where
  reads := by
    rintro _ _ _ ⟨rfl, rfl, rfl⟩ levels s rest counted tokens
    obtain ⟨b, t, read, tokens', -, token⟩ :=
      Parser.block_contained (Parser.confined_expressionWithin levels) closes balanced notEnded
        counted tokens
    exact ⟨b, t, read, congrArg List.tail tokens', token⟩
  hidden := by
    rintro _ _ _ ⟨rfl, -, -⟩
    exact hidden

/-- Faultless tokens and tokens alike, in which the content of one block has been replaced. -/
theorem Parsed.ofTokens_alike {limit : Nat} {v v' : View} {tokens tokens' content : List Token}
    {opening closing : Token} {finish finish' : Location}
    (notEnded : ∀ token ∈ tokens, token.kind ≠ .endOfInput)
    (clean : (ofTokens limit tokens finish).faults = [])
    (alike : Alike v v' (onlyGap opening content closing) tokens tokens')
    (closes : closing.kind = .rightBrace) (balanced : Balanced content)
    (notEnded' : ∀ token ∈ content, token.kind ≠ .endOfInput) (hidden : v'.closed opening = true) :
    (ofTokens limit tokens' finish').program.view v' =
        (ofTokens limit tokens finish).program.view v ∧
      ∀ fault ∈ (ofTokens limit tokens' finish').faults, fault.token ∈ content ++ [closing] := by
  obtain ⟨document, rfl, tree, proper, nesting⟩ : ∃ document : Document noGaps, _ :=
    ofTokens_sound notEnded clean
  obtain ⟨document', rfl, view, nesting', proper'⟩ := document.carried alike
  obtain ⟨faults, program⟩ :=
    ofTokens_complete (fills_onlyGap closes balanced notEnded' hidden) (proper' proper)
      (Nat.le_trans nesting' nesting) finish'
  rw [program, view, tree]
  exact ⟨rfl, faults⟩

/-- **Faults do not leave their block.**  If the content of a block of a faultless text is replaced
by anything in which the braces are balanced, the program stays the same but for the places of its
tokens and the statements of that block, and every fault is found behind the opening brace of the
block and not behind its closing brace. -/
theorem faults_contained {source edited : String}
    {before content behind before' filling behind' : List Token}
    {opening closing opening' closing' : Token} (clean : (Parsed.ofString source).faults = [])
    (tokens : (Lexer.ofString source).tokens = before ++ opening :: (content ++ closing :: behind))
    (opens : opening.kind = .leftBrace) (closes : closing.kind = .rightBrace)
    (matching : Balanced content)
    (tokens' :
      (Lexer.ofString edited).tokens = before' ++ opening' :: (filling ++ closing' :: behind'))
    (balanced : Balanced filling)
    (spelling₁ : before'.map Token.spelling = before.map Token.spelling)
    (spelling₂ : opening'.spelling = opening.spelling)
    (spelling₃ : closing'.spelling = closing.spelling)
    (spelling₄ : behind'.map Token.spelling = behind.map Token.spelling) :
    (Parsed.ofString edited).program.view (.without opening'.location) =
        (Parsed.ofString source).program.view (.without opening.location) ∧
      ∀ fault ∈ (Parsed.ofString edited).faults,
        opening'.location < fault.location ∧ fault.location ≤ closing'.location := by
  have order := (Lexer.ofString source).tokens_pairwise
  have order' := (Lexer.ofString edited).tokens_pairwise
  have notEnded := (Lexer.ofString source).kind_ne_of_mem_tokens
  have notEnded' := (Lexer.ofString edited).kind_ne_of_mem_tokens
  rw [tokens] at order
  rw [tokens'] at order' notEnded'
  obtain ⟨apart₁, apart₂⟩ := location_ne_of_pairwise order
  obtain ⟨apart₁', apart₂'⟩ := location_ne_of_pairwise order'
  have later {other : Token} {place : Location} (lt : place < other.location) :
      other.location ≠ place := fun same => Location.lt_irrefl _ (same ▸ lt)
  have closes' : closing'.kind = .rightBrace :=
    (Token.spelling_eq_iff.1 spelling₃).1.trans closes
  -- the texts agree but for the one block, which stands at places of its own
  have alike : Alike (.without opening.location) (.without opening'.location)
      (onlyGap opening' filling closing') (Lexer.ofString source).tokens
      (Lexer.ofString edited).tokens := by
    rw [tokens, tokens']
    refine alike_without spelling₁ apart₁ apart₁' ?_
    refine .gap (similar_without spelling₂ (iff_of_true rfl rfl)) opens closes closes' matching
      (decide_eq_true rfl) ⟨rfl, rfl, rfl⟩ ?_
    have behind_alike : Alike (.without opening.location) (.without opening'.location)
        (onlyGap opening' filling closing') (behind ++ []) (behind' ++ []) := by
      refine alike_without spelling₄ (fun other member => ?_) (fun other member => ?_) .nil
      · exact later (apart₂ other (by simp [member]))
      · exact later (apart₂' other (by simp [member]))
    simpa using behind_alike
  have kinds : ∀ token ∈ filling, token.kind ≠ .endOfInput :=
    fun token member => notEnded' token (by simp [member])
  obtain ⟨program, faults⟩ :=
    Parsed.ofTokens_alike notEnded clean alike closes' balanced kinds (decide_eq_true rfl)
  exact ⟨program, fun fault member => location_between_of_pairwise order' _ (faults fault member)⟩

/-- A function body with a stray parenthesis, a nested block and a broken binding. -/
theorem faults_contained_function :
    (Parsed.ofString "fn() { ) { let } let }(b)").program.view (.without ⟨1, 6⟩) =
        (Parsed.ofString "fn() { a }(b)").program.view (.without ⟨1, 6⟩) ∧
      ∀ fault ∈ (Parsed.ofString "fn() { ) { let } let }(b)").faults,
        ⟨1, 6⟩ < fault.location ∧ fault.location ≤ ⟨1, 22⟩ := by
  have clean : (Parsed.ofString "fn() \x7b a \x7d(b)").faults = [] := by decide +kernel
  have tokens : (Lexer.ofString "fn() \x7b a \x7d(b)").tokens =
      [⟨.functionWord, "fn", ⟨1, 1⟩⟩, ⟨.leftParen, "(", ⟨1, 3⟩⟩, ⟨.rightParen, ")", ⟨1, 4⟩⟩] ++
        ⟨.leftBrace, "\x7b", ⟨1, 6⟩⟩ :: ([⟨.identifier, "a", ⟨1, 8⟩⟩] ++
          ⟨.rightBrace, "\x7d", ⟨1, 10⟩⟩ :: [⟨.leftParen, "(", ⟨1, 11⟩⟩,
            ⟨.identifier, "b", ⟨1, 12⟩⟩, ⟨.rightParen, ")", ⟨1, 13⟩⟩]) := by decide +kernel
  have tokens' : (Lexer.ofString "fn() \x7b ) \x7b let \x7d let \x7d(b)").tokens =
      [⟨.functionWord, "fn", ⟨1, 1⟩⟩, ⟨.leftParen, "(", ⟨1, 3⟩⟩, ⟨.rightParen, ")", ⟨1, 4⟩⟩] ++
        ⟨.leftBrace, "\x7b", ⟨1, 6⟩⟩ :: ([⟨.rightParen, ")", ⟨1, 8⟩⟩,
            ⟨.leftBrace, "\x7b", ⟨1, 10⟩⟩, ⟨.letWord, "let", ⟨1, 12⟩⟩,
            ⟨.rightBrace, "\x7d", ⟨1, 16⟩⟩, ⟨.letWord, "let", ⟨1, 18⟩⟩] ++
          ⟨.rightBrace, "\x7d", ⟨1, 22⟩⟩ :: [⟨.leftParen, "(", ⟨1, 23⟩⟩,
            ⟨.identifier, "b", ⟨1, 24⟩⟩, ⟨.rightParen, ")", ⟨1, 25⟩⟩]) := by decide +kernel
  exact faults_contained clean tokens rfl rfl (balanced_iff.2 rfl) tokens' (balanced_iff.2 rfl)
    rfl rfl rfl rfl

end MonkeyLang
