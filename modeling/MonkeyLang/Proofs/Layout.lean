import MonkeyLang.Proofs.Relocation
import MonkeyLang.Proofs.Separation

/-!
# Layout

What a parser reads depends on the kinds and literals of the tokens ahead, and not on where they
stand: two lexers that give out the same kinds and literals lead to programs, faults and messages
that are the same but for places, and the faults are found at the same tokens
(`Parsed.ofLexer_layout`).  So white space can be put in, taken out or changed wherever no two
lexemes that stick together touch, and it does not matter what a lexer has given out before.

For the tokens of the faults, both runs are compared to a third one, over tokens whose places are
their numbers (`numbered`).
-/

namespace MonkeyLang

/-! ### Runs over similar tokens -/

/-- Two runs over similar tokens begin side by side. -/
theorem alongside_ofTokens {left right : View} {tokens tokens' : List Token}
    {finish finish' : Location} (all : List.Forall₂ (Similar left right) tokens tokens')
    (ends : Similar left right (.endOfInput finish) (.endOfInput finish')) :
    Alongside left right [] (.ofTokens tokens finish) (.ofTokens tokens' finish') where
  tokens := all
  finish := ends
  braceDepth := congrArg (braceStep 0) (Alongside.similar_head all ends).kind.symm
  nesting := rfl
  events := rfl

/-- Over similar tokens the programs look the same, and so do the faults. -/
theorem Parsed.view_ofTokens {left right : View} {tokens tokens' : List Token}
    {finish finish' : Location} (all : List.Forall₂ (Similar left right) tokens tokens')
    (ends : Similar left right (.endOfInput finish) (.endOfInput finish')) (limit : Nat) :
    (ofTokens limit tokens' finish').program.view right =
        (ofTokens limit tokens finish).program.view left ∧
      (ofTokens limit tokens' finish').faults.map (Fault.view right) =
        (ofTokens limit tokens finish).faults.map (Fault.view left) := by
  obtain ⟨trees, happened⟩ := State.statements_alongside (alongside_ofTokens all ends) limit
  rw [List.append_nil] at happened
  have found := congrArg (fun events => (events.filterMap Event.fault?).reverse) happened
  simp only [filterMap_fault?_view, ← List.map_reverse, ← List.filterMap_reverse] at found
  exact ⟨congrArg Program.mk trees, found⟩

/-! ### Nothing but places -/

/-- Nothing is seen of a token but its kind and its literal. -/
def View.placeless : View := ⟨Token.spelling, Token.spelling, fun _ => false⟩

/-- The wording of a fault does not depend on places. -/
theorem Fault.message_view_placeless (fault : Fault) :
    (fault.view .placeless).message = fault.message :=
  fault.message_view fun _ => rfl

/-- Two programs with their faults, read from two sequences of tokens, differ in nothing but
places. -/
structure Parsed.SameButForPlaces (tokens tokens' : List Token) (parsed parsed' : Parsed) :
    Prop where
  /-- The trees have the same shape, and their tokens the same kinds and literals. -/
  program : parsed.program.view .placeless = parsed'.program.view .placeless
  /-- The same is said of the faults. -/
  messages : parsed.faults.map Fault.message = parsed'.faults.map Fault.message
  /-- The faults are found at tokens with the same numbers. -/
  places : ∃ indices : List Nat,
    parsed.faults.map (some ∘ Fault.token) = indices.map (tokens[·]?) ∧
      parsed'.faults.map (some ∘ Fault.token) = indices.map (tokens'[·]?)

section
variable {tokens tokens' : List Token} {finish finish' : Location}

/-- Tokens of the same kinds and literals are similar through a view that shows no more of them. -/
theorem similar_of_lexemes {v : View} (node : ∀ token, v.node token = token.spelling)
    (lead : ∀ token token', token.spelling = token'.spelling → v.lead token = v.lead token')
    (opened : ∀ token, v.closed token = false)
    (h : tokens.map Token.lexeme = tokens'.map Token.lexeme) :
    List.Forall₂ (Similar v v) tokens tokens' := by
  rw [← List.forall₂_eq_eq_eq, List.forall₂_map_left_iff, List.forall₂_map_right_iff] at h
  refine h.imp fun token token' same => ?_
  have spelling := Token.spelling_eq_iff.2 (Token.lexeme_eq_iff.1 same)
  obtain ⟨kind, literal⟩ := Token.lexeme_eq_iff.1 same
  refine ⟨kind.symm, literal.symm, ?_, (lead token token' spelling).symm, ?_⟩
  · rw [node, node, spelling]
  · rw [opened, opened]

/-- Tokens of the same kinds and literals are similar when places are not seen. -/
theorem similar_placeless (h : tokens.map Token.lexeme = tokens'.map Token.lexeme) :
    List.Forall₂ (Similar .placeless .placeless) tokens tokens' :=
  similar_of_lexemes (fun _ => rfl) (fun _ _ same => same) (fun _ => rfl) h

/-! ### Numbered tokens -/

/-- The same tokens with their numbers for places. -/
def numbered (tokens : List Token) : List Token :=
  tokens.mapIdx fun index token => { token with location := ⟨index, 0⟩ }

/-- The numbered tokens are known from the kinds and literals. -/
theorem numbered_congr (h : tokens.map Token.lexeme = tokens'.map Token.lexeme) :
    numbered tokens = numbered tokens' := by
  apply List.ext_getElem?
  intro index
  have same := congrArg (·[index]?) h
  simp only [List.getElem?_map] at same
  rw [numbered, numbered, List.getElem?_mapIdx, List.getElem?_mapIdx]
  cases here : tokens[index]? with
  | none =>
    rw [here, Option.map_none, eq_comm, Option.map_eq_none_iff] at same
    rw [same]
  | some token =>
    rw [here, Option.map_some, eq_comm, Option.map_eq_some_iff] at same
    obtain ⟨token', here', same⟩ := same
    obtain ⟨kind, literal⟩ := Token.lexeme_eq_iff.1 same
    rw [here', Option.map_some, Option.map_some, kind, literal]

/-- The token with a given number, or the end of input if there are not so many. -/
def tokenAt (tokens : List Token) (finish : Location) (index : Nat) : Token :=
  tokens[index]?.getD (.endOfInput finish)

/-- For every number there is a token, if the end of input stands for all that follow. -/
theorem getElem?_tokenAt (tokens : List Token) (finish : Location) (index : Nat) :
    (tokens ++ [.endOfInput finish])[min index tokens.length]? =
      some (tokenAt tokens finish index) := by
  by_cases inside : index < tokens.length
  · rw [Nat.min_eq_left inside.le, List.getElem?_append_left inside, tokenAt,
      List.getElem?_eq_getElem inside]
    rfl
  · have outside := Nat.not_lt.1 inside
    rw [Nat.min_eq_right outside, List.getElem?_concat_length, tokenAt,
      List.getElem?_eq_none outside]
    rfl

/-- A numbered token is seen as the token with that number. -/
def View.ofNumbers (tokens : List Token) (finish : Location) : View :=
  ⟨fun token => tokenAt tokens finish token.location.line,
    fun token => tokenAt tokens finish token.location.line, fun _ => false⟩

theorem similar_numbered (tokens : List Token) (finish : Location) :
    List.Forall₂ (Similar (.ofNumbers tokens finish) .full) (numbered tokens) tokens := by
  refine List.forall₂_iff_get.2 ⟨List.length_mapIdx, fun index _ inside => ?_⟩
  have seen : tokens[index] = tokenAt tokens finish index := by
    rw [tokenAt, List.getElem?_eq_getElem inside, Option.getD_some]
  rw [List.get_eq_getElem, List.get_eq_getElem]
  simp only [numbered, List.getElem_mapIdx]
  exact ⟨rfl, rfl, seen, seen, rfl⟩

theorem similar_numbered_end (tokens : List Token) (finish : Location) :
    Similar (.ofNumbers tokens finish) .full (.endOfInput ⟨tokens.length, 0⟩)
      (.endOfInput finish) := by
  have seen : Token.endOfInput finish = tokenAt tokens finish tokens.length := by
    rw [tokenAt, List.getElem?_eq_none (Nat.le_refl _), Option.getD_none]
  exact ⟨rfl, rfl, seen, seen, rfl⟩

/-- The tokens at which faults are found are told by their numbers. -/
theorem tokens_of_faults (limit : Nat) (tokens : List Token) (finish : Location) :
    (Parsed.ofTokens limit tokens finish).faults.map (some ∘ Fault.token) =
      ((Parsed.ofTokens limit (numbered tokens) ⟨tokens.length, 0⟩).faults.map
        fun fault => min fault.location.line tokens.length).map
          ((tokens ++ [.endOfInput finish])[·]?) := by
  obtain ⟨-, faults⟩ := Parsed.view_ofTokens (similar_numbered tokens finish)
    (similar_numbered_end tokens finish) limit
  rw [List.map_congr_left fun fault _ => fault.view_full, List.map_id'] at faults
  rw [faults, List.map_map, List.map_map]
  refine List.map_congr_left fun fault _ => ?_
  show some (fault.view _).token = (tokens ++ [.endOfInput finish])[_]?
  rw [getElem?_tokenAt]
  cases fault <;> rfl

/-- Over tokens of the same kinds and literals, the same is read but for places. -/
theorem Parsed.sameButForPlaces_ofTokens
    (h : tokens.map Token.lexeme = tokens'.map Token.lexeme) (limit : Nat) :
    SameButForPlaces (tokens ++ [.endOfInput finish]) (tokens' ++ [.endOfInput finish'])
      (ofTokens limit tokens finish) (ofTokens limit tokens' finish') := by
  have ends : Similar .placeless .placeless (.endOfInput finish) (.endOfInput finish') :=
    ⟨rfl, rfl, rfl, rfl, rfl⟩
  obtain ⟨program, faults⟩ := view_ofTokens (similar_placeless h) ends limit
  have length : tokens.length = tokens'.length := by
    rw [← List.length_map Token.lexeme, h, List.length_map]
  refine ⟨program.symm, ?_, _, tokens_of_faults limit tokens finish, ?_⟩
  · have messages := congrArg (List.map Fault.message) faults
    simp only [List.map_map, Function.comp_def, Fault.message_view_placeless] at messages
    exact messages.symm
  · rw [numbered_congr h, length]
    exact tokens_of_faults limit tokens' finish'

end

/-! ### Lexers that have given out tokens -/

namespace Lexer

/-- The lexer after `n` tokens have been asked for. -/
def afterCalls (n : Nat) (lexer : Lexer) : Lexer := (fun lexer => lexer.nextToken.2)^[n] lexer

theorem afterCalls_succ (n : Nat) (lexer : Lexer) :
    lexer.afterCalls (n + 1) = (lexer.afterCalls n).nextToken.2 :=
  Function.iterate_succ_apply' _ n lexer

/-- The tokens that have been asked for are gone, and nothing else. -/
theorem tokens_afterCalls (n : Nat) (lexer : Lexer) :
    (lexer.afterCalls n).tokens = lexer.tokens.drop n := by
  induction n with
  | zero => rfl
  | succ n ih => rw [afterCalls_succ, tokens_nextToken, ih, List.tail_drop]

theorem finish_afterCalls (n : Nat) (lexer : Lexer) :
    (lexer.afterCalls n).finish = lexer.finish := by
  induction n with
  | zero => rfl
  | succ n ih => rw [afterCalls_succ, finish_nextToken, ih]

end Lexer

/-! ### The same lexemes with other white space -/

/-- The pieces are lexemes with white space before them that keeps them apart. -/
structure WrittenApart (pieces : List Piece) (last : List Char) : Prop where
  space : ∀ piece ∈ pieces, AllSpace piece.space
  spelled : ∀ piece ∈ pieces, piece.lexeme.Spelled
  space_last : AllSpace last
  apart : pieces.IsChain fun first second =>
    second.space = [] → ¬first.lexeme.kind.Sticks second.lexeme.kind

/-- A lexer at the beginning of what is written reads the lexemes of the pieces. -/
theorem WrittenApart.map_lexeme_tokens {pieces : List Piece} {last : List Char}
    (h : WrittenApart pieces last) :
    (Lexer.ofString (String.ofList (spell pieces last))).tokens.map Token.lexeme =
      pieces.map Piece.lexeme := by
  rw [Lexer.map_lexeme_tokens, Lexer.ofString, String.toList_ofList]
  exact (all_spell_iff h.space h.spelled h.space_last).2 h.apart

/-- **Layout means nothing.**  From two lexers that are going to give out the same kinds and
literals the same is read but for places, whatever they have given out before.  So it is with the
same lexemes written down with other white space.  And after some tokens have been asked for, the
tokens that are left are parsed as if they stood alone. -/
theorem Parsed.ofLexer_layout (limit : Nat) :
    (∀ lexer lexer' : Lexer,
      lexer.tokenize.map Token.lexeme = lexer'.tokenize.map Token.lexeme →
        SameButForPlaces lexer.tokenize lexer'.tokenize
          (ofLexer limit lexer) (ofLexer limit lexer')) ∧
    (∀ (pieces pieces' : List Piece) (last last' : List Char),
      pieces.map Piece.lexeme = pieces'.map Piece.lexeme →
      WrittenApart pieces last → WrittenApart pieces' last' →
        let lexer := Lexer.ofString (String.ofList (spell pieces last))
        let lexer' := Lexer.ofString (String.ofList (spell pieces' last'))
        SameButForPlaces lexer.tokenize lexer'.tokenize
          (ofLexer limit lexer) (ofLexer limit lexer')) ∧
    ∀ (lexer : Lexer) (n : Nat),
      ofLexer limit (lexer.afterCalls n) = ofTokens limit (lexer.tokens.drop n) lexer.finish := by
  refine ⟨fun lexer lexer' same => ?_, fun pieces pieces' last last' same apart apart' => ?_,
    fun lexer n => ?_⟩
  · rw [Lexer.tokenize, Lexer.tokenize, List.map_append, List.map_append] at same
    exact sameButForPlaces_ofTokens (List.append_inj_left' same rfl) limit
  · refine sameButForPlaces_ofTokens ?_ limit
    rw [apart.map_lexeme_tokens, apart'.map_lexeme_tokens, same]
  · rw [ofLexer, Lexer.tokens_afterCalls, Lexer.finish_afterCalls]

/-- A statement cut short and an open parenthesis. -/
def brokenPieces (gap : List Char) : List Piece :=
  [⟨gap, .letWord, ['l', 'e', 't']⟩, ⟨[' '], .identifier, ['a']⟩, ⟨gap, .semicolon, [';']⟩,
    ⟨gap, .leftParen, ['(']⟩, ⟨gap, .integer, ['1']⟩]

theorem writtenApart_brokenPieces {gap last : List Char} (space : AllSpace gap)
    (space_last : AllSpace last) : WrittenApart (brokenPieces gap) last where
  space := by
    simp only [brokenPieces, List.forall_mem_cons, List.not_mem_nil, false_imp_iff, implies_true,
      and_true]
    refine ⟨space, ?_, space, space, space⟩
    simp [AllSpace, isSpace]
  spelled := by
    simp only [brokenPieces, List.forall_mem_cons, List.not_mem_nil, false_imp_iff, implies_true,
      and_true]
    refine ⟨Lexeme.Whole.spelled ?_, Lexeme.Whole.spelled ?_, Lexeme.Whole.spelled ?_,
      Lexeme.Whole.spelled ?_, Lexeme.Whole.spelled ?_⟩
    all_goals exact ⟨_, _, rfl, rfl, rfl⟩
  space_last := space_last
  apart := by simp [brokenPieces, Kind.Sticks, Kind.IsWord]

/-- The layout of a broken text, behind tokens that have been asked for and at another place. -/
theorem Parsed.ofLexer_layout_broken :
    let lexer := (Lexer.ofString "fn\n\x7b let a;(1").afterCalls 2
    let lexer' : Lexer := ⟨"let\r\n\ta\n; ( 1 ".toList, ⟨7, 3⟩, true⟩
    let text := String.ofList (spell (brokenPieces []) [])
    let text' := String.ofList (spell (brokenPieces ['\n', ' ']) ['\t'])
    lexer.tokenize.map Token.lexeme = lexer'.tokenize.map Token.lexeme ∧
      (ofLexer 8 lexer).faults.map Fault.location = [⟨2, 8⟩, ⟨2, 11⟩] ∧
      SameButForPlaces lexer.tokenize lexer'.tokenize (ofLexer 8 lexer) (ofLexer 8 lexer') ∧
      SameButForPlaces (Lexer.ofString text).tokenize (Lexer.ofString text').tokenize
        (ofLexer 8 (.ofString text)) (ofLexer 8 (.ofString text')) := by
  intro lexer lexer' text text'
  have same : lexer.tokenize.map Token.lexeme = lexer'.tokenize.map Token.lexeme := by
    decide +kernel
  have space : AllSpace ['\n', ' '] := by simp [AllSpace, isSpace]
  have space_last : AllSpace ['\t'] := by simp [AllSpace, isSpace]
  have none : AllSpace [] := by simp [AllSpace]
  refine ⟨same, by decide +kernel, (ofLexer_layout 8).1 lexer lexer' same, ?_⟩
  exact (ofLexer_layout 8).2.1 _ _ _ _ rfl (writtenApart_brokenPieces none none)
    (writtenApart_brokenPieces space space_last)

end MonkeyLang
