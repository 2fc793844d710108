import Mathlib.Data.List.Chain
import MonkeyLang.Proofs.LongestMatch

/-!
# Where white space is needed

If lexemes are written down one behind the other, with any white space before, between and behind
them, then they are read back from the text just if no two neighbours that stick together are
without white space between them (`Lexer.tokenize_spell_iff`).  Two words stick together, two
numbers do, and so does the sign `=` or `!` with a sign that begins with `=` (`Kind.Sticks`).

Whether a lexeme is read again is decided by the first character behind it (`all_piece_iff`), and
this character tells what kind of lexeme it begins (`Lexeme.Spelled.prolongedBy_iff`).
-/

namespace MonkeyLang

/-- With nothing between them, two lexemes of these kinds would be read otherwise. -/
def Kind.Sticks (first second : Kind) : Prop :=
  first.IsWord ∧ second.IsWord ∨ first = .integer ∧ second = .integer ∨
    (first = .assign ∨ first = .bang) ∧ (second = .assign ∨ second = .equal)

/-- The character tells a word from a number and from a sign that begins with an equality sign. -/
def Kind.BeginsWith (kind : Kind) (c : Char) : Prop :=
  (isLetter c = true ↔ kind.IsWord) ∧ (c.isDigit = true ↔ kind = .integer) ∧
    (c = '=' ↔ kind = .assign ∨ kind = .equal)

/-- The first character of a fixed spelling tells what it is. -/
theorem Kind.beginsWith_text {kind : Kind} {c : Char} {more : List Char}
    (text : kind.text.toList = c :: more) : kind.BeginsWith c := by
  cases kind <;> simp [Kind.text] at text
  all_goals
    obtain ⟨rfl, -⟩ := text
    simp [BeginsWith, IsWord, isLetter]

namespace Lexeme

variable {lexeme : Lexeme} {c : Char} {more : List Char}

/-- The first character of a lexeme tells what it is. -/
theorem Spelled.beginsWith (spelled : lexeme.Spelled) (text : lexeme.text = c :: more) :
    lexeme.kind.BeginsWith c := by
  have member : c ∈ lexeme.text := text ▸ List.mem_cons_self
  cases spelled with
  | fixed kind h => exact Kind.beginsWith_text text
  | name _ letters =>
    have letter : isLetter c = true := letters c member
    have notDigit : c.isDigit = false :=
      Bool.eq_false_iff.2 fun digit => absurd letter (by rw [isLetter_of_isDigit digit]; decide)
    have notEquals : c ≠ '=' := by
      rintro rfl
      exact absurd letter (by decide)
    simp [Kind.BeginsWith, letter, notDigit, notEquals, Kind.IsWord]
  | number _ digits =>
    have digit : c.isDigit = true := digits c member
    have notEquals : c ≠ '=' := by
      rintro rfl
      exact absurd digit (by decide)
    simp [Kind.BeginsWith, isLetter_of_isDigit digit, digit, notEquals, Kind.IsWord]
  | stray _ notLetter notDigit noSign =>
    obtain rfl := List.mem_singleton.1 member
    have notEquals : c ≠ '=' := by
      rintro rfl
      exact noSign .assign rfl
    simp [Kind.BeginsWith, notLetter, notDigit, notEquals, Kind.IsWord]

/-- A lexeme is prolonged by the first character of another one just if the two stick together. -/
theorem Spelled.prolongedBy_iff (spelled : lexeme.Spelled) (text : lexeme.text = c :: more)
    (kind : Kind) : kind.ProlongedBy c ↔ kind.Sticks lexeme.kind := by
  obtain ⟨letter, digit, equals⟩ := spelled.beginsWith text
  rw [Kind.ProlongedBy, Kind.Sticks, letter, digit, equals]

end Lexeme

variable {pieces : List Piece} {piece : Piece} {last rest : List Char}

/-- White space prolongs no lexeme. -/
theorem Kind.endsBefore_of_space (kind : Kind) {space : List Char} (h : AllSpace space)
    (nonempty : space ≠ []) (rest : List Char) : kind.EndsBefore (space ++ rest) := by
  cases space with
  | nil => exact absurd rfl nonempty
  | cons c space =>
    rintro _ ⟨⟩ prolonged
    have isSpace : isSpace c = true := h c List.mem_cons_self
    rcases prolonged with ⟨-, letter⟩ | ⟨-, digit⟩ | ⟨-, rfl⟩
    · exact absurd isSpace (by rw [Lexeme.isSpace_of_isLetter letter]; decide)
    · exact absurd isSpace (by rw [Lexeme.isSpace_of_isDigit digit]; decide)
    · exact absurd isSpace (by decide)

/-- A lexeme is not prolonged by the piece behind it just if there is white space between the two
or they do not stick together. -/
theorem Kind.endsBefore_piece_iff (kind : Kind) (space : AllSpace piece.space)
    (spelled : piece.lexeme.Spelled) (rest : List Char) :
    kind.EndsBefore (piece.text ++ rest) ↔
      (piece.space = [] → ¬kind.Sticks piece.lexeme.kind) := by
  by_cases empty : piece.space = []
  · obtain ⟨c, more, text⟩ := List.exists_cons_of_ne_nil spelled.solid.1
    have whole : piece.text ++ rest = c :: (more ++ rest) := by
      rw [Piece.text, empty, text, List.nil_append, List.cons_append]
    rw [whole, ← spelled.prolongedBy_iff text kind]
    constructor
    · exact fun ends _ => ends c rfl
    · rintro apart _ ⟨⟩
      exact apart empty
  · rw [Piece.text, List.append_assoc]
    exact iff_of_true (kind.endsBefore_of_space space empty _) fun same => absurd same empty

/-- A piece is read first, and the rest behind it, just if the rest does not prolong it. -/
theorem all_piece_iff (space : AllSpace piece.space) (spelled : piece.lexeme.Spelled)
    {lexemes : List Lexeme} :
    Lexeme.all (piece.text ++ rest) = piece.lexeme :: lexemes ↔
      piece.lexeme.kind.EndsBefore rest ∧ Lexeme.all rest = lexemes := by
  constructor
  · intro read
    obtain ⟨c, more, text⟩ := List.exists_cons_of_ne_nil spelled.solid.1
    have stop : ∀ d, (c :: (more ++ rest)).head? = some d → isSpace d = false := by
      rintro _ ⟨⟩
      exact spelled.solid.2.1 c (text ▸ List.mem_cons_self)
    obtain ⟨-, dropped⟩ := Lexeme.run_append space stop
    have whole : piece.text ++ rest = piece.space ++ (c :: (more ++ rest)) := by
      rw [Piece.text, text, List.append_assoc, List.cons_append]
    rw [whole, Lexeme.all_of_ahead dropped] at read
    obtain ⟨same, later⟩ := List.cons.inj read
    -- the lexeme is what is read, so what is left is the rest
    have split := Lexeme.first_append c (more ++ rest)
    rw [same, text, List.cons_append] at split
    have left := List.append_cancel_left (List.cons.inj split).2
    have ends := Lexeme.endsBefore_first c (more ++ rest)
    rw [same, left] at ends
    exact ⟨ends, by rw [← left, later]⟩
  · rintro ⟨ends, rfl⟩
    obtain ⟨c, more, -, dropped, read⟩ := Piece.first_eq space spelled ends
    rw [Lexeme.all_of_ahead dropped, read]

/-- Lexemes are read back from what is written just if no neighbours stick together. -/
theorem all_spell_iff (space : ∀ piece ∈ pieces, AllSpace piece.space)
    (spelled : ∀ piece ∈ pieces, piece.lexeme.Spelled) (space_last : AllSpace last) :
    Lexeme.all (spell pieces last) = pieces.map Piece.lexeme ↔
      pieces.IsChain fun first second =>
        second.space = [] → ¬first.lexeme.kind.Sticks second.lexeme.kind := by
  induction pieces with
  | nil => exact iff_of_true (Lexeme.all_of_blank space_last.dropWhile_eq) .nil
  | cons piece pieces ih =>
    obtain ⟨space_here, space⟩ := List.forall_mem_cons.1 space
    obtain ⟨spelled_here, spelled⟩ := List.forall_mem_cons.1 spelled
    rw [spell_cons, List.map_cons, all_piece_iff space_here spelled_here, ih space spelled]
    cases pieces with
    | nil =>
      refine iff_of_true ⟨?_, .nil⟩ (.singleton piece)
      by_cases empty : last = []
      · simp [spell_nil, empty, Kind.EndsBefore]
      · have ends := piece.lexeme.kind.endsBefore_of_space space_last empty []
        rwa [List.append_nil] at ends
    | cons next pieces =>
      rw [spell_cons, List.isChain_cons_cons,
        piece.lexeme.kind.endsBefore_piece_iff (space next List.mem_cons_self)
          (spelled next List.mem_cons_self)]

/-- **White space is needed where two lexemes stick together, and nowhere else.**  Let lexemes that
are spelled as their kinds ask for be written down with any white space before, between and behind
them.  The lexer gives back the same kinds and literals, and then the end of input, just if there is
white space between all neighbours that are both words, both numbers, or one of the signs `=` and
`!` before one of the signs `=` and `==`. -/
theorem Lexer.tokenize_spell_iff (pieces : List Piece) (last : List Char)
    (space : ∀ piece ∈ pieces, AllSpace piece.space)
    (spelled : ∀ piece ∈ pieces, piece.lexeme.Spelled) (space_last : AllSpace last) :
    (ofString (String.ofList (spell pieces last))).tokenize.map Token.lexeme =
        pieces.map Piece.lexeme ++ [⟨.endOfInput, []⟩] ↔
      pieces.IsChain fun first second =>
        second.space = [] → ¬first.lexeme.kind.Sticks second.lexeme.kind := by
  have read : (ofString (String.ofList (spell pieces last))).tokens.map Token.lexeme =
      Lexeme.all (spell pieces last) := by
    rw [map_lexeme_tokens, ofString, String.toList_ofList]
  rw [tokenize, List.map_append, read, ← all_spell_iff space spelled space_last]
  exact List.append_left_inj _

/-- The lexemes of a text with hardly any white space. -/
def crowdedPieces : List Piece :=
  [⟨[], .identifier, ['a']⟩, ⟨[], .integer, ['1', '2']⟩, ⟨[], .bang, ['!']⟩,
    ⟨[], .notEqual, ['!', '=']⟩, ⟨[], .equal, ['=', '=']⟩, ⟨[], .assign, ['=']⟩,
    ⟨[' '], .assign, ['=']⟩, ⟨['\n'], .functionWord, ['f', 'n']⟩, ⟨['\t'], .identifier, ['x']⟩,
    ⟨[], .illegal, ['§']⟩]

/-- Signs may stand side by side unless the longest match would join them. -/
theorem Lexer.tokenize_crowdedPieces :
    (∀ piece ∈ crowdedPieces, AllSpace piece.space ∧ piece.lexeme.Spelled) ∧
      spell crowdedPieces ['\r'] = "a12!!==== =\nfn\tx§\r".toList ∧
      (ofString "a12!!==== =\nfn\tx§\r").tokenize.map Token.lexeme =
        crowdedPieces.map Piece.lexeme ++ [⟨.endOfInput, []⟩] := by
  have space : ∀ piece ∈ crowdedPieces, AllSpace piece.space := by
    simp [crowdedPieces, AllSpace, isSpace]
  have whole : ∀ piece ∈ crowdedPieces, piece.lexeme.Whole := by
    simp only [crowdedPieces, List.forall_mem_cons, List.not_mem_nil, false_imp_iff, implies_true,
      and_true]
    refine ⟨?_, ?_, ?_, ?_, ?_, ?_, ?_, ?_, ?_, ?_⟩
    all_goals exact ⟨_, _, rfl, rfl, rfl⟩
  have apart : crowdedPieces.IsChain fun first second =>
      second.space = [] → ¬first.lexeme.kind.Sticks second.lexeme.kind := by
    simp [crowdedPieces, Kind.Sticks, Kind.IsWord]
  have text : spell crowdedPieces ['\r'] = "a12!!==== =\nfn\tx§\r".toList := rfl
  have read := (tokenize_spell_iff crowdedPieces ['\r'] space
    (fun piece member => (whole piece member).spelled) (by simp [AllSpace, isSpace])).2 apart
  rw [text, String.ofList_toList] at read
  exact ⟨fun piece member => ⟨space piece member, (whole piece member).spelled⟩, text, read⟩

end MonkeyLang
