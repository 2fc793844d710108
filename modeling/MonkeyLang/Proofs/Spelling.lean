import MonkeyLang.Lexer

/-!
# Texts as sequences of lexemes

Where a token stands does not matter for what it is.  `Lexeme.all` reads a text as a sequence of
lexemes, which are tokens without a place, and `Lexer.map_lexeme_tokens` says that the lexer reads
the same sequence.

A lexeme is `Whole` if it is what is read from its own text, as every token of a text is.  In a
longer text it is read again, provided that what follows does not prolong it
(`Lexeme.all_append_of_breaks`).  So a text that is put together from whole lexemes and delimiters
is read piece by piece.
-/

namespace MonkeyLang

/-- A token without its place. -/
def Token.lexeme (token : Token) : Lexeme := ⟨token.kind, token.literal.toList⟩

theorem Token.lexeme_eq_iff {s t : Token} :
    s.lexeme = t.lexeme ↔ s.kind = t.kind ∧ s.literal = t.literal := by
  simp [lexeme, String.toList_inj]

namespace Lexeme

/-- The lexemes of a text. -/
def all (text : List Char) : List Lexeme :=
  match _ahead : text.dropWhile isSpace with
  | [] => []
  | c :: rest => (first c rest).1 :: all (first c rest).2
termination_by text.length
decreasing_by
  have shorter := (List.dropWhile_sublist isSpace (l := text)).length_le
  have left := first_rest_length c rest
  rw [_ahead, List.length_cons] at shorter
  omega

theorem all_of_blank {text : List Char} (h : text.dropWhile isSpace = []) : all text = [] := by
  rw [all]
  split
  · rfl
  · rename_i ahead
    rw [h] at ahead
    exact absurd ahead (by simp)

theorem all_of_ahead {text : List Char} {c : Char} {rest : List Char}
    (h : text.dropWhile isSpace = c :: rest) :
    all text = (first c rest).1 :: all (first c rest).2 := by
  rw [all]
  split
  · rename_i ahead
    rw [h] at ahead
    exact absurd ahead (by simp)
  · rename_i ahead
    rw [h] at ahead
    obtain ⟨rfl, rfl⟩ := List.cons.inj ahead
    rfl

theorem all_nil : all [] = [] := all_of_blank rfl

/-- A space between lexemes is skipped. -/
theorem all_space (text : List Char) : all (' ' :: text) = all text := by
  have skipped : (' ' :: text).dropWhile isSpace = text.dropWhile isSpace := rfl
  cases ahead : text.dropWhile isSpace with
  | nil => rw [all_of_blank ahead, all_of_blank (skipped.trans ahead)]
  | cons c rest => rw [all_of_ahead ahead, all_of_ahead (skipped.trans ahead)]

theorem all_cons {c : Char} {rest : List Char} (h : isSpace c = false) :
    all (c :: rest) = (first c rest).1 :: all (first c rest).2 :=
  all_of_ahead (by rw [List.dropWhile_cons, h]; rfl)

/-! ### Whole lexemes -/

/-- The lexeme is what is read from its own text. -/
def Whole (lexeme : Lexeme) : Prop :=
  ∃ c more, lexeme.text = c :: more ∧ isSpace c = false ∧ first c more = (lexeme, [])

/-- The text does not begin with a character that could prolong a lexeme. -/
def Breaks (rest : List Char) : Prop :=
  ∀ c, rest.head? = some c → isLetter c = false ∧ c.isDigit = false ∧ c ≠ '='

theorem breaks_nil : Breaks [] := by
  intro c h
  simp at h

theorem breaks_cons {c : Char} (rest : List Char)
    (h : isLetter c = false ∧ c.isDigit = false ∧ c ≠ '=') : Breaks (c :: rest) := by
  rintro _ ⟨⟩
  exact h

theorem breaks_space (rest : List Char) : Breaks (' ' :: rest) := breaks_cons rest (by decide)

theorem breaks_leftParen (rest : List Char) : Breaks ('(' :: rest) := breaks_cons rest (by decide)

theorem breaks_rightParen (rest : List Char) : Breaks (')' :: rest) := breaks_cons rest (by decide)

theorem breaks_comma (rest : List Char) : Breaks (',' :: rest) := breaks_cons rest (by decide)

theorem breaks_semicolon (rest : List Char) : Breaks (';' :: rest) := breaks_cons rest (by decide)

/-- A run of characters of one class stops at the first character of another one. -/
theorem run_append {p : Char → Bool} {run rest : List Char} (inside : ∀ c ∈ run, p c = true)
    (stop : ∀ c, rest.head? = some c → p c = false) :
    (run ++ rest).takeWhile p = run ∧ (run ++ rest).dropWhile p = rest := by
  rw [List.takeWhile_append_of_pos inside, List.dropWhile_append_of_pos inside]
  cases rest with
  | nil => simp
  | cons c rest => simp [stop c rfl]

theorem first_of_letter {c : Char} {run rest : List Char} (letter : isLetter c = true)
    (inside : ∀ c ∈ run, isLetter c = true)
    (stop : ∀ c, rest.head? = some c → isLetter c = false) :
    first c (run ++ rest) = (⟨Kind.ofWord (String.ofList (c :: run)), c :: run⟩, rest) := by
  obtain ⟨taken, dropped⟩ := run_append inside stop
  unfold first
  rw [if_pos letter, taken, dropped]

theorem first_of_digit {c : Char} {run rest : List Char} (notLetter : isLetter c = false)
    (digit : c.isDigit = true) (inside : ∀ c ∈ run, c.isDigit = true)
    (stop : ∀ c, rest.head? = some c → c.isDigit = false) :
    first c (run ++ rest) = (⟨.integer, c :: run⟩, rest) := by
  obtain ⟨taken, dropped⟩ := run_append inside stop
  unfold first
  rw [if_neg (by rw [notLetter]; simp), if_pos digit, taken, dropped]

theorem first_of_symbol {c : Char} {rest : List Char}
    (notLetter : isLetter c = false) (notDigit : c.isDigit = false)
    (single : c = '=' ∨ c = '!' → rest.head? ≠ some '=') :
    first c rest = (⟨Kind.ofSymbol c, [c]⟩, rest) := by
  unfold first
  rw [if_neg (by rw [notLetter]; simp), if_neg (by rw [notDigit]; simp)]
  split
  · exact absurd rfl (single (.inl rfl))
  · exact absurd rfl (single (.inr rfl))
  · rfl

/-- A text is a run of characters of one class, and what begins with another one. -/
theorem exists_run (p : Char → Bool) (text : List Char) :
    ∃ run rest, text = run ++ rest ∧ (∀ c ∈ run, p c = true) ∧
      ∀ c, rest.head? = some c → p c = false := by
  refine ⟨text.takeWhile p, text.dropWhile p, List.takeWhile_append_dropWhile.symm, ?_, ?_⟩
  · exact List.all_eq_true.1 List.all_takeWhile
  · intro c head
    have stop := List.head?_dropWhile_not p text
    rwa [head] at stop

/-- What can be read first: a word, a number, a sign of two characters, or a single character. -/
inductive Reading (c : Char) : List Char → Lexeme × List Char → Prop
  | word {run rest : List Char} (letter : isLetter c = true)
      (inside : ∀ c ∈ run, isLetter c = true)
      (stop : ∀ c, rest.head? = some c → isLetter c = false) :
      Reading c (run ++ rest) (⟨Kind.ofWord (String.ofList (c :: run)), c :: run⟩, rest)
  | number {run rest : List Char} (notLetter : isLetter c = false) (digit : c.isDigit = true)
      (inside : ∀ c ∈ run, c.isDigit = true)
      (stop : ∀ c, rest.head? = some c → c.isDigit = false) :
      Reading c (run ++ rest) (⟨.integer, c :: run⟩, rest)
  | equal {rest : List Char} (sign : c = '=') :
      Reading c ('=' :: rest) (⟨.equal, [c, '=']⟩, rest)
  | notEqual {rest : List Char} (sign : c = '!') :
      Reading c ('=' :: rest) (⟨.notEqual, [c, '=']⟩, rest)
  | symbol {rest : List Char} (notLetter : isLetter c = false) (notDigit : c.isDigit = false)
      (single : c = '=' ∨ c = '!' → rest.head? ≠ some '=') :
      Reading c rest (⟨Kind.ofSymbol c, [c]⟩, rest)

theorem reading_first (c : Char) (rest : List Char) : Reading c rest (first c rest) := by
  by_cases letter : isLetter c = true
  · obtain ⟨run, later, rfl, inside, stop⟩ := exists_run isLetter rest
    rw [first_of_letter letter inside stop]
    exact .word letter inside stop
  -- what is neither a letter nor a digit is a sign
  have notLetter : isLetter c = false := by simpa using letter
  by_cases digit : c.isDigit = true
  · obtain ⟨run, later, rfl, inside, stop⟩ := exists_run Char.isDigit rest
    rw [first_of_digit notLetter digit inside stop]
    exact .number notLetter digit inside stop
  have notDigit : c.isDigit = false := by simpa using digit
  by_cases long : (c = '=' ∨ c = '!') ∧ rest.head? = some '='
  · obtain ⟨later, rfl⟩ := List.head?_eq_some_iff.1 long.2
    rcases long.1 with rfl | rfl
    · exact .equal rfl
    · exact .notEqual rfl
  · have single : c = '=' ∨ c = '!' → rest.head? ≠ some '=' := fun sign head => long ⟨sign, head⟩
    rw [first_of_symbol notLetter notDigit single]
    exact .symbol notLetter notDigit single

/-- What is read first is whole. -/
theorem whole_first {c : Char} {rest : List Char} (h : isSpace c = false) :
    (first c rest).1.Whole := by
  have reading := reading_first c rest
  generalize first c rest = result at reading
  cases reading with
  | @word run _ letter inside stop =>
    refine ⟨c, run, rfl, h, ?_⟩
    have again : first c (run ++ []) = _ := first_of_letter letter inside (by simp)
    rwa [List.append_nil] at again
  | @number run _ notLetter digit inside stop =>
    refine ⟨c, run, rfl, h, ?_⟩
    have again : first c (run ++ []) = _ := first_of_digit notLetter digit inside (by simp)
    rwa [List.append_nil] at again
  | equal sign =>
    subst sign
    exact ⟨'=', ['='], rfl, h, rfl⟩
  | notEqual sign =>
    subst sign
    exact ⟨'!', ['='], rfl, h, rfl⟩
  | symbol notLetter notDigit =>
    exact ⟨c, [], rfl, h, first_of_symbol notLetter notDigit (by simp)⟩

/-- What is read first is not changed by what follows, if that does not prolong it. -/
theorem first_append_of_breaks (c : Char) (more : List Char) {rest : List Char}
    (breaks : Breaks rest) :
    first c (more ++ rest) = ((first c more).1, (first c more).2 ++ rest) := by
  -- a run that stops within the text stops there also in the longer text
  have stops {p : Char → Bool} {later : List Char} (stop : ∀ c, later.head? = some c → p c = false)
      (behind : ∀ c, rest.head? = some c → p c = false) :
      ∀ c, (later ++ rest).head? = some c → p c = false := by
    cases later with
    | nil => exact behind
    | cons c later => exact stop
  have reading := reading_first c more
  generalize first c more = result at reading
  cases reading with
  | word letter inside stop =>
    rw [List.append_assoc]
    exact first_of_letter letter inside (stops stop fun c head => (breaks c head).1)
  | number notLetter digit inside stop =>
    rw [List.append_assoc]
    exact first_of_digit notLetter digit inside (stops stop fun c head => (breaks c head).2.1)
  | equal sign =>
    subst sign
    rfl
  | notEqual sign =>
    subst sign
    rfl
  | symbol notLetter notDigit single =>
    refine first_of_symbol notLetter notDigit fun sign head => ?_
    cases more with
    | nil => exact (breaks '=' head).2.2 rfl
    | cons c more => exact single sign head

/-- A whole lexeme is read again if what follows does not prolong it. -/
theorem Whole.first_append {lexeme : Lexeme} {c : Char} {more rest : List Char}
    (whole : first c more = (lexeme, [])) (breaks : Breaks rest) :
    first c (more ++ rest) = (lexeme, rest) := by
  rw [first_append_of_breaks c more breaks, whole, List.nil_append]

theorem all_append_of_breaks {lexeme : Lexeme} {rest : List Char} (whole : lexeme.Whole)
    (breaks : Breaks rest) : all (lexeme.text ++ rest) = lexeme :: all rest := by
  obtain ⟨c, more, text, notSpace, read⟩ := whole
  rw [text, List.cons_append, all_cons notSpace, Whole.first_append read breaks]

/-- White space at the end of a text is skipped. -/
theorem all_append_spaces {spaces : List Char} (skipped : ∀ c ∈ spaces, isSpace c = true)
    (text : List Char) : all (text ++ spaces) = all text := by
  have breaks : Breaks spaces := by
    intro c head
    have space := skipped c (List.mem_of_head? head)
    simp only [isSpace, Bool.or_eq_true, decide_eq_true_eq] at space
    rcases space with ((rfl | rfl) | rfl) | rfl <;> decide
  fun_induction all text with
  | case1 text ahead =>
    refine all_of_blank ?_
    rw [List.dropWhile_append, ahead, List.isEmpty_nil, if_pos rfl, ← List.append_nil spaces]
    exact (run_append skipped (by simp)).2
  | case2 text c rest ahead ih =>
    have longer : (text ++ spaces).dropWhile isSpace = c :: (rest ++ spaces) := by
      rw [List.dropWhile_append, ahead]
      rfl
    rw [all_of_ahead longer, first_append_of_breaks c rest breaks, ih]

/-- Every lexeme of a text is whole. -/
theorem whole_of_mem_all (text : List Char) : ∀ lexeme ∈ all text, lexeme.Whole := by
  fun_induction all text with
  | case1 => simp
  | case2 text c rest ahead ih =>
    have notSpace : isSpace c = false := by
      have stop := List.head?_dropWhile_not isSpace text
      rwa [ahead] at stop
    intro lexeme member
    rcases List.mem_cons.1 member with rfl | member
    · exact whole_first notSpace
    · exact ih lexeme member

end Lexeme

/-! ### Fixed spellings -/

/-- The text of the tokens of a kind, if all of them have the same one, and otherwise nothing. -/
def Kind.text : Kind → String
  | illegal | endOfInput | identifier | integer => ""
  | assign => "="
  | plus => "+"
  | minus => "-"
  | bang => "!"
  | asterisk => "*"
  | slash => "/"
  | less => "<"
  | greater => ">"
  | equal => "=="
  | notEqual => "!="
  | comma => ","
  | semicolon => ";"
  | leftParen => "("
  | rightParen => ")"
  | leftBrace => "\x7b"
  | rightBrace => "\x7d"
  | functionWord => "fn"
  | letWord => "let"
  | trueWord => "true"
  | falseWord => "false"
  | ifWord => "if"
  | elseWord => "else"
  | returnWord => "return"

/-- A keyword has the text of its kind. -/
theorem Kind.text_ofWord {word : String} (h : (ofWord word).text ≠ "") :
    (ofWord word).text = word := by
  revert h
  unfold ofWord
  repeat' split
  all_goals
    rename_i same
    intro h
    first
    | exact same.symm
    | exact absurd rfl h

/-- A sign of one character has the text of its kind. -/
theorem Kind.text_ofSymbol {c : Char} (h : (ofSymbol c).text ≠ "") :
    (ofSymbol c).text.toList = [c] := by
  revert h
  unfold ofSymbol
  split
  all_goals
    intro h
    first
    | rfl
    | exact absurd rfl h

theorem Kind.whole_text {kind : Kind} (h : kind.text ≠ "") :
    Lexeme.Whole ⟨kind, kind.text.toList⟩ := by
  cases kind
  case illegal | endOfInput | identifier | integer => exact absurd rfl h
  all_goals exact ⟨_, _, rfl, rfl, rfl⟩

/-- A word that is read as an identifier is no keyword. -/
theorem Lexeme.Whole.ofWord_eq {lexeme : Lexeme} (whole : lexeme.Whole)
    (kind : lexeme.kind = .identifier) : Kind.ofWord (String.ofList lexeme.text) = .identifier := by
  obtain ⟨c, more, -, -, read⟩ := whole
  have reading := reading_first c more
  rw [read] at reading
  generalize same : (lexeme, ([] : List Char)) = result at reading
  cases reading with
  | word =>
    obtain ⟨rfl, rfl⟩ := Prod.mk.inj same
    exact kind
  | symbol =>
    obtain ⟨rfl, rfl⟩ := Prod.mk.inj same
    have noWord : Kind.ofSymbol c ≠ .identifier := by
      unfold Kind.ofSymbol
      split <;> decide
    exact absurd kind noWord
  | number | equal | notEqual =>
    obtain ⟨rfl, rfl⟩ := Prod.mk.inj same
    simp at kind

/-- A whole lexeme of a kind with a fixed spelling is spelled that way. -/
theorem Lexeme.Whole.text_eq {lexeme : Lexeme} (whole : lexeme.Whole) (h : lexeme.kind.text ≠ "") :
    lexeme.text = lexeme.kind.text.toList := by
  obtain ⟨c, more, -, -, read⟩ := whole
  have reading := reading_first c more
  rw [read] at reading
  generalize same : (lexeme, ([] : List Char)) = result at reading
  cases reading with
  | word =>
    obtain ⟨rfl, rfl⟩ := Prod.mk.inj same
    rw [Kind.text_ofWord h, String.toList_ofList]
  | number =>
    obtain ⟨rfl, rfl⟩ := Prod.mk.inj same
    exact absurd rfl h
  | equal sign =>
    obtain ⟨rfl, rfl⟩ := Prod.mk.inj same
    rw [sign]
    rfl
  | notEqual sign =>
    obtain ⟨rfl, rfl⟩ := Prod.mk.inj same
    rw [sign]
    rfl
  | symbol =>
    obtain ⟨rfl, rfl⟩ := Prod.mk.inj same
    exact (Kind.text_ofSymbol h).symm

/-! ### The lexer -/

theorem Lexeme.first_kind_ne (c : Char) (rest : List Char) :
    (first c rest).1.kind ≠ .endOfInput := by
  have reading := reading_first c rest
  generalize first c rest = result at reading
  cases reading with
  | word =>
    show Kind.ofWord _ ≠ .endOfInput
    unfold Kind.ofWord
    repeat' split
    all_goals simp
  | number => simp
  | equal => simp
  | notEqual => simp
  | symbol =>
    show Kind.ofSymbol c ≠ .endOfInput
    unfold Kind.ofSymbol
    split
    all_goals simp

/-- Where the lexer gives the end of input, the text is used up. -/
theorem Lexer.nextToken_of_end {lexer : Lexer} (h : lexer.nextToken.1.kind = .endOfInput) :
    lexer.nextToken =
      (.endOfInput lexer.finish, { lexer with rest := [], location := lexer.finish }) := by
  cases ahead : lexer.rest.dropWhile isSpace with
  | nil => exact nextToken_of_blank ahead
  | cons c rest =>
    rw [nextToken_of_ahead ahead] at h
    exact absurd h (Lexeme.first_kind_ne c rest)

/-- To ask for a token takes the first of the tokens ahead, if there is one. -/
theorem Lexer.tokens_nextToken (lexer : Lexer) :
    lexer.nextToken.2.tokens = lexer.tokens.tail := by
  by_cases ended : lexer.nextToken.1.kind = .endOfInput
  · rw [tokens_of_end ended, nextToken_of_end ended]
    exact tokens_of_end rfl
  · rw [tokens_of_token ended, List.tail_cons]

/-- The lexer reads the lexemes of the text ahead. -/
theorem Lexer.map_lexeme_tokens (lexer : Lexer) :
    lexer.tokens.map Token.lexeme = Lexeme.all lexer.rest := by
  fun_induction Lexer.tokens lexer with
  | case1 lexer step ended =>
    cases ahead : lexer.rest.dropWhile isSpace with
    | nil => rw [Lexeme.all_of_blank ahead, List.map_nil]
    | cons c rest =>
      have kind : lexer.nextToken.1.kind = .endOfInput := ended
      rw [nextToken_of_ahead ahead] at kind
      exact absurd kind (Lexeme.first_kind_ne c rest)
  | case2 lexer step notEnded ih =>
    cases ahead : lexer.rest.dropWhile isSpace with
    | nil =>
      refine absurd ?_ notEnded
      show lexer.nextToken.1.kind = .endOfInput
      rw [nextToken_of_blank ahead]
      rfl
    | cons c rest =>
      have here : lexer.nextToken = _ := nextToken_of_ahead ahead
      rw [List.map_cons, ih, Lexeme.all_of_ahead ahead]
      show lexer.nextToken.1.lexeme :: Lexeme.all lexer.nextToken.2.rest = _
      rw [here]
      simp [Token.lexeme]

/-- Every token of a text is whole. -/
theorem Lexer.whole_of_mem_tokens (lexer : Lexer) :
    ∀ token ∈ lexer.tokens, token.lexeme.Whole := by
  intro token member
  have mem := List.mem_map_of_mem (f := Token.lexeme) member
  rw [lexer.map_lexeme_tokens] at mem
  exact Lexeme.whole_of_mem_all _ _ mem

end MonkeyLang
