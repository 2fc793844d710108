import Mathlib.Data.List.Induction
import MonkeyLang.Proofs.Spelling

/-!
# The longest match

The lexer loses nothing, takes as much as it can, and knows where it stands.  Every text is divided
into lexemes with white space before and behind them; every lexeme is `Spelled` as its kind asks
for, and none of them could be longer (`Kind.EndsBefore`).  There is just one such division, and
the tokens of the text are its lexemes, each at the place that is found by counting what stands
before it (`Lexer.tokenize_eq_placed`).

What is read from the head of a text is known from `Lexeme.reading_first`.  From this come the two
halves of the argument: what the lexer reads is a piece that could not be longer (`exists_piece`),
and a piece that could not be longer is what the lexer reads (`Piece.first_eq`).  The first makes a
division, the second leaves no choice.
-/

namespace MonkeyLang

/-! ### Kinds and their characters -/

namespace Kind

/-- The identifiers and the keywords. -/
def IsWord : Kind → Prop
  | identifier | functionWord | letWord | trueWord | falseWord | ifWord | elseWord | returnWord =>
    True
  | _ => False

/-- Directly behind a lexeme of the kind the character would belong to it. -/
def ProlongedBy (kind : Kind) (c : Char) : Prop :=
  kind.IsWord ∧ isLetter c = true ∨ kind = integer ∧ c.isDigit = true ∨
    (kind = assign ∨ kind = bang) ∧ c = '='

/-- A lexeme of the kind is not prolonged by what follows. -/
def EndsBefore (kind : Kind) (rest : List Char) : Prop :=
  ∀ c, rest.head? = some c → ¬kind.ProlongedBy c

theorem isWord_ofWord (word : String) : (ofWord word).IsWord := by
  unfold ofWord
  repeat' split
  all_goals trivial

/-- A word that is no identifier is a keyword, which has a spelling. -/
theorem text_ofWord_ne {word : String} (h : ofWord word ≠ identifier) :
    (ofWord word).text ≠ "" := by
  revert h
  unfold ofWord
  repeat' split
  all_goals
    intro h
    first
    | exact absurd rfl h
    | decide

/-- A character that is not illegal is a sign, which has a spelling. -/
theorem text_ofSymbol_ne {c : Char} (h : ofSymbol c ≠ illegal) : (ofSymbol c).text ≠ "" := by
  revert h
  unfold ofSymbol
  split
  all_goals
    intro h
    first
    | exact absurd rfl h
    | decide

/-- A spelling of letters is that of a keyword. -/
theorem ofWord_text {kind : Kind} (nonempty : kind.text ≠ "")
    (letters : kind.text.toList.all isLetter = true) : ofWord kind.text = kind := by
  revert nonempty letters
  cases kind <;> decide +kernel

/-- No spelling has white space in it. -/
theorem all_text (kind : Kind) : (kind.text.toList.all fun c => !isSpace c) = true := by
  cases kind <;> rfl

/-- A spelling of one character is that of a sign. -/
theorem ofSymbol_of_text {kind : Kind} {c : Char} (h : kind.text.toList = [c]) :
    ofSymbol c = kind := by
  cases kind <;> simp [text] at h <;> subst h <;> rfl

theorem not_isWord_ofSymbol (c : Char) : ¬(ofSymbol c).IsWord := by
  unfold ofSymbol
  split
  all_goals exact id

theorem ofSymbol_ne_integer (c : Char) : ofSymbol c ≠ integer := by
  unfold ofSymbol
  split
  all_goals decide

/-- Of the signs of one character two could be prolonged. -/
theorem eq_or_eq_of_ofSymbol {c : Char} (h : ofSymbol c = assign ∨ ofSymbol c = bang) :
    c = '=' ∨ c = '!' := by
  rcases h with h | h
  · have text := text_ofSymbol (c := c) (by rw [h]; decide)
    rw [h] at text
    exact .inl (List.cons.inj text).1.symm
  · have text := text_ofSymbol (c := c) (by rw [h]; decide)
    rw [h] at text
    exact .inr (List.cons.inj text).1.symm

end Kind

/-! ### Spelled lexemes -/

namespace Lexeme

/-- A lexeme is spelled as its kind asks for: a keyword or a sign with the text of its kind, an
identifier with letters that are no keyword, an integer with digits, and an illegal one with a
single character that can begin nothing else. -/
inductive Spelled : Lexeme → Prop
  | fixed (kind : Kind) (h : kind.text ≠ "") : Spelled ⟨kind, kind.text.toList⟩
  | name {run : List Char} (nonempty : run ≠ []) (letters : ∀ c ∈ run, isLetter c = true)
      (noKeyword : ∀ kind : Kind, kind.text.toList ≠ run) : Spelled ⟨.identifier, run⟩
  | number {run : List Char} (nonempty : run ≠ []) (digits : ∀ c ∈ run, c.isDigit = true) :
      Spelled ⟨.integer, run⟩
  | stray {c : Char} (notSpace : isSpace c = false) (notLetter : isLetter c = false)
      (notDigit : c.isDigit = false) (noSign : ∀ kind : Kind, kind.text.toList ≠ [c]) :
      Spelled ⟨.illegal, [c]⟩

/-- A character of a class without white space is no white space. -/
theorem isSpace_of_class {p : Char → Bool} {c : Char} (h : p c = true)
    (apart : p ' ' = false ∧ p '\t' = false ∧ p '\r' = false ∧ p '\n' = false) :
    isSpace c = false := by
  refine Bool.eq_false_iff.2 fun space => ?_
  have spaces : c = ' ' ∨ c = '\t' ∨ c = '\r' ∨ c = '\n' := by
    simpa [isSpace, or_assoc] using space
  rcases spaces with rfl | rfl | rfl | rfl <;> simp [apart] at h

theorem isSpace_of_isLetter {c : Char} (h : isLetter c = true) : isSpace c = false :=
  isSpace_of_class h ⟨rfl, rfl, rfl, rfl⟩

theorem isSpace_of_isDigit {c : Char} (h : c.isDigit = true) : isSpace c = false :=
  isSpace_of_class h ⟨rfl, rfl, rfl, rfl⟩

/-- The letters are in two ranges of ASCII, and the underscore is one of them. -/
theorem toNat_of_isLetter {c : Char} (h : isLetter c = true) :
    65 ≤ c.toNat ∧ c.toNat ≤ 90 ∨ 97 ≤ c.toNat ∧ c.toNat ≤ 122 ∨ c = '_' := by
  have h : (decide (65 ≤ c.val ∧ c.val ≤ 90) ||
      decide (97 ≤ c.val) && decide (c.val ≤ 122) || decide (c = '_')) = true := h
  simp only [Bool.or_eq_true, Bool.and_eq_true, decide_eq_true_eq, UInt32.le_iff_toNat_le,
    or_assoc] at h
  exact h

theorem isLetter_of_isDigit {c : Char} (h : c.isDigit = true) : isLetter c = false := by
  refine Bool.eq_false_iff.2 fun letter => ?_
  -- the digits come before all letters
  obtain ⟨-, small⟩ : 48 ≤ c.toNat ∧ c.toNat ≤ 57 := Char.isDigit_iff_toNat.1 h
  rcases toNat_of_isLetter letter with ⟨large, -⟩ | ⟨large, -⟩ | rfl
  · exact absurd (Nat.le_trans large small) (by decide)
  · exact absurd (Nat.le_trans large small) (by decide)
  · exact absurd small (by decide)

/-- What is spelled is read from its own text. -/
theorem Spelled.whole {lexeme : Lexeme} (h : lexeme.Spelled) : lexeme.Whole := by
  cases h with
  | fixed kind h => exact Kind.whole_text h
  | @name run nonempty letters noKeyword =>
    cases run with
    | nil => exact absurd rfl nonempty
    | cons c run =>
      have letter : isLetter c = true := letters c List.mem_cons_self
      have word : Kind.ofWord (String.ofList (c :: run)) = .identifier := by
        refine Decidable.byContradiction fun keyword =>
          noKeyword (Kind.ofWord (String.ofList (c :: run))) ?_
        rw [Kind.text_ofWord (Kind.text_ofWord_ne keyword), String.toList_ofList]
      have read : first c (run ++ []) = _ :=
        first_of_letter letter (fun d member => letters d (List.mem_cons_of_mem _ member)) (by simp)
      rw [List.append_nil, word] at read
      exact ⟨c, run, rfl, isSpace_of_isLetter letter, read⟩
  | @number run nonempty digits =>
    cases run with
    | nil => exact absurd rfl nonempty
    | cons c run =>
      have digit : c.isDigit = true := digits c List.mem_cons_self
      have read : first c (run ++ []) = _ :=
        first_of_digit (isLetter_of_isDigit digit) digit
          (fun d member => digits d (List.mem_cons_of_mem _ member)) (by simp)
      rw [List.append_nil] at read
      exact ⟨c, run, rfl, isSpace_of_isDigit digit, read⟩
  | @stray c notSpace notLetter notDigit noSign =>
    have illegal : Kind.ofSymbol c = .illegal := by
      refine Decidable.byContradiction fun sign =>
        noSign (Kind.ofSymbol c) ?_
      exact Kind.text_ofSymbol (Kind.text_ofSymbol_ne sign)
    have read : first c [] = _ := first_of_symbol notLetter notDigit (by simp)
    rw [illegal] at read
    exact ⟨c, [], rfl, notSpace, read⟩

/-- What is read from its own text is spelled. -/
theorem Whole.spelled {lexeme : Lexeme} (whole : lexeme.Whole) : lexeme.Spelled := by
  obtain ⟨c, more, -, notSpace, read⟩ := whole
  have reading := reading_first c more
  rw [read] at reading
  generalize same : (lexeme, ([] : List Char)) = result at reading
  cases reading with
  | @word run _ letter inside =>
    obtain ⟨rfl, rfl⟩ := Prod.mk.inj same
    have letters : ∀ d ∈ c :: run, isLetter d = true := List.forall_mem_cons.2 ⟨letter, inside⟩
    by_cases word : Kind.ofWord (String.ofList (c :: run)) = .identifier
    · rw [word]
      refine .name (by simp) letters fun kind text => ?_
      -- a keyword would have been recognized
      have spelling : kind.text = String.ofList (c :: run) := by rw [← text, String.ofList_toList]
      have nonempty : kind.text ≠ "" := by rw [spelling]; simp
      have keyword := Kind.ofWord_text nonempty (by rw [text]; exact List.all_eq_true.2 letters)
      rw [spelling, word] at keyword
      exact nonempty (by rw [← keyword]; rfl)
    · have text := Kind.text_ofWord (Kind.text_ofWord_ne word)
      have fixed := Spelled.fixed _ (Kind.text_ofWord_ne word)
      rwa [text, String.toList_ofList] at fixed
  | number _ digit inside =>
    obtain ⟨rfl, rfl⟩ := Prod.mk.inj same
    exact .number (by simp) (List.forall_mem_cons.2 ⟨digit, inside⟩)
  | equal sign =>
    obtain ⟨rfl, rfl⟩ := Prod.mk.inj same
    subst sign
    exact .fixed .equal (by decide)
  | notEqual sign =>
    obtain ⟨rfl, rfl⟩ := Prod.mk.inj same
    subst sign
    exact .fixed .notEqual (by decide)
  | symbol notLetter notDigit =>
    obtain ⟨rfl, rfl⟩ := Prod.mk.inj same
    by_cases illegal : Kind.ofSymbol c = .illegal
    · rw [illegal]
      refine .stray notSpace notLetter notDigit fun kind text => ?_
      have sign := Kind.ofSymbol_of_text text
      rw [illegal] at sign
      rw [← sign] at text
      exact absurd text (by simp [Kind.text])
    · have fixed := Spelled.fixed _ (Kind.text_ofSymbol_ne illegal)
      rwa [Kind.text_ofSymbol (Kind.text_ofSymbol_ne illegal)] at fixed

/-- A spelled lexeme has at least one character and none of white space. -/
theorem Spelled.solid {lexeme : Lexeme} (h : lexeme.Spelled) :
    lexeme.text ≠ [] ∧ (∀ c ∈ lexeme.text, isSpace c = false) ∧ lexeme.kind ≠ .endOfInput := by
  cases h with
  | fixed kind h =>
    refine ⟨fun empty => h (String.toList_inj.1 empty), fun c member => ?_, ?_⟩
    · simpa using List.all_eq_true.1 kind.all_text c member
    · rintro rfl
      exact h rfl
  | name nonempty letters =>
    exact ⟨nonempty, fun c member => isSpace_of_isLetter (letters c member), nofun⟩
  | number nonempty digits =>
    exact ⟨nonempty, fun c member => isSpace_of_isDigit (digits c member), nofun⟩
  | stray notSpace => exact ⟨by simp, by simpa using notSpace, nofun⟩

/-! ### Where a lexeme ends -/

/-- A whole lexeme is read again if what follows does not prolong it. -/
theorem Whole.first_append_of_ends {lexeme : Lexeme} {c : Char} {more rest : List Char}
    (read : first c more = (lexeme, [])) (ends : lexeme.kind.EndsBefore rest) :
    first c (more ++ rest) = (lexeme, rest) := by
  have reading := reading_first c more
  rw [read] at reading
  generalize same : (lexeme, ([] : List Char)) = result at reading
  cases reading with
  | word letter inside =>
    obtain ⟨rfl, rfl⟩ := Prod.mk.inj same
    rw [List.append_nil]
    refine first_of_letter letter inside fun d head => ?_
    exact Bool.eq_false_iff.2 fun longer => ends d head (.inl ⟨Kind.isWord_ofWord _, longer⟩)
  | number notLetter digit inside =>
    obtain ⟨rfl, rfl⟩ := Prod.mk.inj same
    rw [List.append_nil]
    refine first_of_digit notLetter digit inside fun d head => ?_
    exact Bool.eq_false_iff.2 fun longer => ends d head (.inr (.inl ⟨rfl, longer⟩))
  | equal sign =>
    obtain ⟨rfl, rfl⟩ := Prod.mk.inj same
    subst sign
    rfl
  | notEqual sign =>
    obtain ⟨rfl, rfl⟩ := Prod.mk.inj same
    subst sign
    rfl
  | symbol notLetter notDigit =>
    obtain ⟨rfl, rfl⟩ := Prod.mk.inj same
    refine first_of_symbol notLetter notDigit fun sign head => ?_
    refine ends '=' head (.inr (.inr ⟨?_, rfl⟩))
    rcases sign with rfl | rfl
    · exact .inl rfl
    · exact .inr rfl

/-- What is read first could not be longer. -/
theorem endsBefore_first (c : Char) (rest : List Char) :
    (first c rest).1.kind.EndsBefore (first c rest).2 := by
  have reading := reading_first c rest
  generalize first c rest = result at reading
  intro d head prolonged
  cases reading with
  | @word run _ letter inside stop =>
    have word : (Kind.ofWord (String.ofList (c :: run))).IsWord := Kind.isWord_ofWord _
    rcases prolonged with ⟨-, longer⟩ | ⟨number, -⟩ | ⟨sign | sign, -⟩
    · exact absurd longer (by rw [stop d head]; decide)
    · exact (number ▸ word : Kind.IsWord .integer)
    · exact (sign ▸ word : Kind.IsWord .assign)
    · exact (sign ▸ word : Kind.IsWord .bang)
  | number notLetter digit inside stop =>
    rcases prolonged with ⟨word, -⟩ | ⟨-, longer⟩ | ⟨sign | sign, -⟩
    · exact word
    · exact absurd longer (by rw [stop d head]; decide)
    · cases sign
    · cases sign
  | equal => exact absurd prolonged (by simp [Kind.ProlongedBy, Kind.IsWord])
  | notEqual => exact absurd prolonged (by simp [Kind.ProlongedBy, Kind.IsWord])
  | symbol notLetter notDigit single =>
    rcases prolonged with ⟨word, -⟩ | ⟨number, -⟩ | ⟨sign, rfl⟩
    · exact Kind.not_isWord_ofSymbol c word
    · exact Kind.ofSymbol_ne_integer c number
    · exact single (Kind.eq_or_eq_of_ofSymbol sign) head

end Lexeme

/-! ### Divisions of a text -/

/-- A lexeme with the white space before it. -/
structure Piece where
  /-- What stands between the lexeme before and this one. -/
  space : List Char
  /-- The lexeme. -/
  lexeme : Lexeme

/-- The characters of a piece. -/
def Piece.text (piece : Piece) : List Char := piece.space ++ piece.lexeme.text

/-- The text of some pieces and of what stands behind them. -/
def spell (pieces : List Piece) (last : List Char) : List Char :=
  pieces.flatMap Piece.text ++ last

theorem spell_nil (last : List Char) : spell [] last = last := rfl

theorem spell_cons (piece : Piece) (pieces : List Piece) (last : List Char) :
    spell (piece :: pieces) last = piece.text ++ spell pieces last := by
  simp [spell]

/-- Nothing but white space. -/
def AllSpace (text : List Char) : Prop := ∀ c ∈ text, isSpace c = true

/-- The text is divided into the pieces and the white space behind them.  Nothing of it is lost,
every lexeme is spelled as its kind asks for, and none could be longer. -/
structure Divides (text : List Char) (pieces : List Piece) (last : List Char) : Prop where
  whole : spell pieces last = text
  space : ∀ piece ∈ pieces, AllSpace piece.space
  space_last : AllSpace last
  spelled : ∀ piece ∈ pieces, piece.lexeme.Spelled
  longest : ∀ before piece behind, pieces = before ++ piece :: behind →
    piece.lexeme.kind.EndsBefore (spell behind last)

/-- The place behind some text: a line more than there are line feeds in it, and a column more than
there are characters behind the last of them. -/
def Location.behind (text : List Char) : Location :=
  ⟨1 + text.count '\n', 1 + (text.reverse.takeWhile fun c => c ≠ '\n').length⟩

/-- The tokens of some pieces that stand behind a text. -/
def placed : List Char → List Piece → List Token
  | _, [] => []
  | front, piece :: pieces =>
    ⟨piece.lexeme.kind, String.ofList piece.lexeme.text, .behind (front ++ piece.space)⟩ ::
      placed (front ++ piece.text) pieces

variable {text last last' : List Char} {piece : Piece} {pieces pieces' : List Piece}

theorem divides_nil_iff : Divides text [] last ↔ last = text ∧ AllSpace last := by
  constructor
  · exact fun h => ⟨h.whole, h.space_last⟩
  · rintro ⟨rfl, space⟩
    exact ⟨rfl, by simp, space, by simp, by simp⟩

/-- A division begins with a piece that could not be longer, and goes on with a division of the
rest. -/
theorem divides_cons_iff : Divides text (piece :: pieces) last ↔
    ∃ rest, piece.text ++ rest = text ∧ AllSpace piece.space ∧ piece.lexeme.Spelled ∧
      piece.lexeme.kind.EndsBefore rest ∧ Divides rest pieces last := by
  constructor
  · intro h
    refine ⟨spell pieces last, by rw [← spell_cons, h.whole], h.space piece List.mem_cons_self,
      h.spelled piece List.mem_cons_self, h.longest [] piece pieces rfl, rfl,
      fun other member => h.space other (List.mem_cons_of_mem _ member), h.space_last,
      fun other member => h.spelled other (List.mem_cons_of_mem _ member), ?_⟩
    rintro before other behind rfl
    exact h.longest (piece :: before) other behind rfl
  · rintro ⟨rest, rfl, space, spelled, ends, h⟩
    refine ⟨by rw [spell_cons, h.whole], List.forall_mem_cons.2 ⟨space, h.space⟩, h.space_last,
      List.forall_mem_cons.2 ⟨spelled, h.spelled⟩, ?_⟩
    intro before other behind same
    cases before with
    | nil =>
      obtain ⟨rfl, rfl⟩ := List.cons.inj same
      rwa [h.whole]
    | cons _ before => exact h.longest before other behind (List.cons.inj same).2

/-! ### Pieces and the lexer -/

/-- A piece that could not be longer is what is read first. -/
theorem Piece.first_eq {rest : List Char} (space : AllSpace piece.space)
    (spelled : piece.lexeme.Spelled) (ends : piece.lexeme.kind.EndsBefore rest) :
    ∃ c more, (piece.text ++ rest).takeWhile isSpace = piece.space ∧
      (piece.text ++ rest).dropWhile isSpace = c :: more ∧
      Lexeme.first c more = (piece.lexeme, rest) := by
  obtain ⟨c, more, text, notSpace, read⟩ := spelled.whole
  have stop : ∀ d, (c :: (more ++ rest)).head? = some d → isSpace d = false := by
    rintro _ ⟨⟩
    exact notSpace
  obtain ⟨taken, dropped⟩ := Lexeme.run_append space stop
  have whole : piece.text ++ rest = piece.space ++ (c :: (more ++ rest)) := by
    rw [Piece.text, text, List.append_assoc, List.cons_append]
  rw [← whole] at taken dropped
  exact ⟨c, more ++ rest, taken, dropped, Lexeme.Whole.first_append_of_ends read ends⟩

/-- What is read first is a piece that could not be longer. -/
theorem exists_piece {c : Char} {more : List Char} (ahead : text.dropWhile isSpace = c :: more) :
    ∃ piece : Piece, piece.text ++ (Lexeme.first c more).2 = text ∧ AllSpace piece.space ∧
      piece.lexeme.Spelled ∧ piece.lexeme.kind.EndsBefore (Lexeme.first c more).2 := by
  have notSpace : isSpace c = false := by
    have stop := List.head?_dropWhile_not isSpace text
    rwa [ahead] at stop
  refine ⟨⟨text.takeWhile isSpace, (Lexeme.first c more).1⟩, ?_, ?_, ?_, ?_⟩
  · rw [Piece.text, List.append_assoc, Lexeme.first_append, ← ahead,
      List.takeWhile_append_dropWhile]
  · exact List.all_eq_true.1 List.all_takeWhile
  · exact (Lexeme.whole_first notSpace).spelled
  · exact Lexeme.endsBefore_first c more

theorem AllSpace.dropWhile_eq (h : AllSpace text) : text.dropWhile isSpace = [] := by
  have dropped : (text ++ []).dropWhile isSpace = [] := (Lexeme.run_append h (by simp)).2
  rwa [List.append_nil] at dropped

theorem allSpace_of_dropWhile_eq (h : text.dropWhile isSpace = []) : AllSpace text := by
  have whole := List.takeWhile_append_dropWhile (p := isSpace) (l := text)
  rw [h, List.append_nil] at whole
  rw [← whole]
  exact List.all_eq_true.1 List.all_takeWhile

/-- Every text can be divided. -/
theorem exists_divides (text : List Char) : ∃ pieces last, Divides text pieces last := by
  fun_induction Lexeme.all text with
  | case1 text ahead => exact ⟨[], text, divides_nil_iff.2 ⟨rfl, allSpace_of_dropWhile_eq ahead⟩⟩
  | case2 text c more ahead ih =>
    obtain ⟨pieces, last, later⟩ := ih
    obtain ⟨piece, whole, space, spelled, ends⟩ := exists_piece ahead
    exact ⟨piece :: pieces, last, divides_cons_iff.2 ⟨_, whole, space, spelled, ends, later⟩⟩

/-- A text can be divided in one way only. -/
theorem Divides.unique (h : Divides text pieces last) (h' : Divides text pieces' last') :
    pieces' = pieces ∧ last' = last := by
  induction pieces generalizing text pieces' with
  | nil =>
    obtain ⟨rfl, space⟩ := divides_nil_iff.1 h
    cases pieces' with
    | nil => exact ⟨rfl, (divides_nil_iff.1 h').1⟩
    | cons piece' pieces' =>
      -- where there is nothing but white space, no lexeme is read
      obtain ⟨rest', rfl, space', spelled', ends', -⟩ := divides_cons_iff.1 h'
      obtain ⟨c, more, -, dropped, -⟩ := Piece.first_eq space' spelled' ends'
      rw [space.dropWhile_eq] at dropped
      exact absurd dropped (by simp)
  | cons piece pieces ih =>
    obtain ⟨rest, rfl, space, spelled, ends, later⟩ := divides_cons_iff.1 h
    obtain ⟨c, more, taken, dropped, read⟩ := Piece.first_eq space spelled ends
    cases pieces' with
    | nil =>
      obtain ⟨rfl, space'⟩ := divides_nil_iff.1 h'
      rw [space'.dropWhile_eq] at dropped
      exact absurd dropped (by simp)
    | cons piece' pieces' =>
      obtain ⟨rest', whole, space', spelled', ends', later'⟩ := divides_cons_iff.1 h'
      obtain ⟨c', more', taken', dropped', read'⟩ := Piece.first_eq space' spelled' ends'
      rw [whole] at taken' dropped'
      obtain ⟨rfl, rfl⟩ := List.cons.inj (dropped'.symm.trans dropped)
      obtain ⟨same, rfl⟩ := Prod.mk.inj (read'.symm.trans read)
      have equal : piece' = piece := by
        cases piece
        cases piece'
        exact congr (congrArg Piece.mk (taken'.symm.trans taken)) same
      obtain ⟨rfl, rfl⟩ := ih later later'
      exact ⟨by rw [equal], rfl⟩

/-! ### Places -/

/-- The place that is reached by walking over a text is found by counting. -/
theorem Location.after_start (text : List Char) : start.after text = behind text := by
  induction text using List.reverseRecOn with
  | nil => rfl
  | append_singleton text c ih =>
    rw [after_append, ih]
    by_cases feed : c = '\n'
    · simp [behind, next, feed, Nat.add_assoc]
    · simp [behind, next, feed, Nat.add_assoc, List.count_append]

/-- The tokens ahead of a lexer are the lexemes of the division, each at its place. -/
theorem Lexer.tokens_of_divides {lexer : Lexer} {front : List Char}
    (h : Divides lexer.rest pieces last) (place : lexer.location = .behind front) :
    lexer.tokens = placed front pieces := by
  induction pieces generalizing lexer front with
  | nil =>
    obtain ⟨rfl, space⟩ := divides_nil_iff.1 h
    exact tokens_of_end (by rw [nextToken_of_blank space.dropWhile_eq]; rfl)
  | cons piece pieces ih =>
    obtain ⟨rest, whole, space, spelled, ends, later⟩ := divides_cons_iff.1 h
    obtain ⟨c, more, taken, dropped, read⟩ := Piece.first_eq space spelled ends
    rw [whole] at taken dropped
    have next := nextToken_of_ahead dropped
    rw [read, taken, place, ← Location.after_start, ← Location.after_append,
      ← Location.after_append, Location.after_start, Location.after_start] at next
    have kind : lexer.nextToken.1.kind ≠ .endOfInput := by
      rw [next]
      exact spelled.solid.2.2
    have place' : lexer.nextToken.2.location = .behind (front ++ piece.text) := by
      rw [next, Piece.text, ← List.append_assoc]
    have later' : Divides lexer.nextToken.2.rest pieces last := by rwa [next]
    rw [tokens_of_token kind, ih later' place', next, placed]

/-- **The lexer is lossless, takes the longest match, and knows where it stands.**  A text is its
tokens with white space before and behind them, and one end of input comes behind the last token.
Every token has some characters, none of them white space, is spelled as its kind asks for, and
could not be longer.  It is at the place that is found by counting the line feeds, and the
characters behind the last of them, in the text before it, and the end of input is at the end of
the text.  There is no other division of the text of this kind. -/
theorem Lexer.tokenize_eq_placed (source : String) :
    ∃ pieces last, Divides source.toList pieces last ∧
      (ofString source).tokenize =
        placed [] pieces ++ [.endOfInput (.behind source.toList)] ∧
      (∀ piece ∈ pieces, piece.lexeme.text ≠ [] ∧
        (∀ c ∈ piece.lexeme.text, isSpace c = false) ∧ piece.lexeme.kind ≠ .endOfInput) ∧
      ∀ pieces' last', Divides source.toList pieces' last' → pieces' = pieces ∧ last' = last := by
  obtain ⟨pieces, last, divides⟩ := exists_divides source.toList
  refine ⟨pieces, last, divides, ?_, fun piece member => (divides.spelled piece member).solid,
    fun _ _ => divides.unique⟩
  have tokens : (ofString source).tokens = placed [] pieces := tokens_of_divides divides rfl
  have finish : (ofString source).finish = .behind source.toList := Location.after_start _
  rw [tokenize, tokens, finish]

end MonkeyLang
