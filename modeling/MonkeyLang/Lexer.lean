import MonkeyLang.Token.Basic

/-!
# Reading tokens from a text

A `Lexer` stands at a place in a source text and gives out one token after another.  No text is
refused: a character that begins nothing known becomes a token of its own, of the kind `illegal`.

`Lexeme.first` is the rule of the longest match: a run of letters and underscores, a run of digits,
one of the signs `==` and `!=`, or a single character.  `Lexer.nextToken` applies it after skipping
white space, and repeats the end of input for ever once the text is used up.  `Lexer.next?` is the
same sequence cut off before the end of input; skipping, collecting and counting are built on it.
`Lexer.tokens` is what lies ahead up to the end of input and `Lexer.finish` the place of that end.

`nextToken_rest_length` says that a token other than the end of input uses up text, which is why
reading on comes to an end.
-/

namespace MonkeyLang

/-! ### Character classes -/

/-- White space between tokens: space, tab, carriage return and line feed. -/
def isSpace (c : Char) : Bool := c = ' ' || c = '\t' || c = '\r' || c = '\n'

/-- The characters of identifiers and keywords: the ASCII letters and the underscore. -/
def isLetter (c : Char) : Bool := c.isAlpha || c = '_'

/-! ### The longest match -/

/-- A piece of text that forms one token, with its kind. -/
structure Lexeme where
  /-- The lexical category. -/
  kind : Kind
  /-- The characters of the piece. -/
  text : List Char
deriving DecidableEq, Repr

/-- The longest lexeme at the head of the text `c :: rest`, and the text behind it. -/
def Lexeme.first (c : Char) (rest : List Char) : Lexeme × List Char :=
  if isLetter c then
    let word := c :: rest.takeWhile isLetter
    (⟨Kind.ofWord (String.ofList word), word⟩, rest.dropWhile isLetter)
  else if c.isDigit then
    (⟨.integer, c :: rest.takeWhile Char.isDigit⟩, rest.dropWhile Char.isDigit)
  else
    match c, rest with
    | '=', '=' :: rest => (⟨.equal, ['=', '=']⟩, rest)
    | '!', '=' :: rest => (⟨.notEqual, ['!', '=']⟩, rest)
    | c, rest => (⟨Kind.ofSymbol c, [c]⟩, rest)

/-- The longest match splits the text: its characters come first, the rest is untouched. -/
theorem Lexeme.first_append (c : Char) (rest : List Char) :
    (Lexeme.first c rest).1.text ++ (Lexeme.first c rest).2 = c :: rest := by
  unfold Lexeme.first
  split
  · simp
  · split
    · simp
    · split <;> simp_all

/-- A lexeme has at least one character. -/
theorem Lexeme.first_text_ne_nil (c : Char) (rest : List Char) :
    (Lexeme.first c rest).1.text ≠ [] := by
  unfold Lexeme.first
  split
  · simp
  · split
    · simp
    · split <;> simp

theorem Lexeme.first_rest_length (c : Char) (rest : List Char) :
    (Lexeme.first c rest).2.length ≤ rest.length := by
  have whole := congrArg List.length (Lexeme.first_append c rest)
  have positive := List.length_pos_iff.2 (Lexeme.first_text_ne_nil c rest)
  simp only [List.length_append, List.length_cons] at whole
  omega

/-! ### The lexer -/

/-- A place in a source text from which tokens are read. -/
structure Lexer where
  /-- The text that is still to be read. -/
  rest : List Char
  /-- The place of the first character of `rest`. -/
  location : Location := .start
  /-- Whether the cut-off sequence has reported its end. -/
  exhausted : Bool := false
deriving DecidableEq, Repr

namespace Lexer

/-- A lexer at the beginning of a text. -/
def ofString (source : String) : Lexer := { rest := source.toList }

/-- The next token and the lexer behind it.  At the end of the text this is the end of input, as
often as it is asked for. -/
def nextToken (lexer : Lexer) : Token × Lexer :=
  let place := lexer.location.after (lexer.rest.takeWhile isSpace)
  match lexer.rest.dropWhile isSpace with
  | [] => (.endOfInput place, { lexer with rest := [], location := place })
  | c :: rest =>
    let (lexeme, rest) := Lexeme.first c rest
    (⟨lexeme.kind, String.ofList lexeme.text, place⟩,
      { lexer with rest, location := place.after lexeme.text })

theorem nextToken_of_blank {lexer : Lexer} (h : lexer.rest.dropWhile isSpace = []) :
    lexer.nextToken =
      (.endOfInput (lexer.location.after lexer.rest),
        { lexer with rest := [], location := lexer.location.after lexer.rest }) := by
  have whole := List.takeWhile_append_dropWhile (p := isSpace) (l := lexer.rest)
  rw [h, List.append_nil] at whole
  simp [nextToken, h, whole]

theorem nextToken_of_ahead {lexer : Lexer} {c : Char} {rest : List Char}
    (h : lexer.rest.dropWhile isSpace = c :: rest) :
    lexer.nextToken =
      (⟨(Lexeme.first c rest).1.kind, String.ofList (Lexeme.first c rest).1.text,
          lexer.location.after (lexer.rest.takeWhile isSpace)⟩,
        { lexer with
          rest := (Lexeme.first c rest).2
          location := (lexer.location.after (lexer.rest.takeWhile isSpace)).after
            (Lexeme.first c rest).1.text }) := by
  simp [nextToken, h]

/-- Reading a token other than the end of input uses up some of the text. -/
theorem nextToken_rest_length (lexer : Lexer) (h : lexer.nextToken.1.kind ≠ .endOfInput) :
    lexer.nextToken.2.rest.length < lexer.rest.length := by
  cases ahead : lexer.rest.dropWhile isSpace with
  | nil => simp [nextToken_of_blank ahead, Token.endOfInput] at h
  | cons c rest =>
    have shorter := (List.dropWhile_sublist isSpace (l := lexer.rest)).length_le
    have left := Lexeme.first_rest_length c rest
    rw [ahead, List.length_cons] at shorter
    rw [nextToken_of_ahead ahead]
    show (Lexeme.first c rest).2.length < lexer.rest.length
    omega

/-- The place of the end of input. -/
def finish (lexer : Lexer) : Location := lexer.location.after lexer.rest

/-- Reading a token leaves the end of input where it is. -/
theorem finish_nextToken (lexer : Lexer) : lexer.nextToken.2.finish = lexer.finish := by
  cases ahead : lexer.rest.dropWhile isSpace with
  | nil => rw [nextToken_of_blank ahead]; rfl
  | cons c rest =>
    have whole := congrArg lexer.location.after
      (List.takeWhile_append_dropWhile (p := isSpace) (l := lexer.rest))
    rw [ahead, ← Lexeme.first_append, Location.after_append, Location.after_append] at whole
    rw [nextToken_of_ahead ahead]
    exact whole

/-- The next token before the end of input; after the last one, nothing for ever. -/
def next? (lexer : Lexer) : Option Token × Lexer :=
  if lexer.exhausted then (none, lexer)
  else
    let step := lexer.nextToken
    if step.1.kind = .endOfInput then (none, { step.2 with exhausted := true })
    else (some step.1, step.2)

/-- Reading a token before the end of input uses up some of the text. -/
theorem next?_rest_length (lexer : Lexer) (h : lexer.next?.1.isSome) :
    lexer.next?.2.rest.length < lexer.rest.length := by
  unfold next? at h ⊢
  by_cases done : lexer.exhausted
  · simp [done] at h
  · by_cases ended : lexer.nextToken.1.kind = .endOfInput
    · simp [done, ended] at h
    · simpa [done, ended] using lexer.nextToken_rest_length ended

/-- Skips `n` tokens and gives the one behind them. -/
def nth? : Nat → Lexer → Option Token × Lexer
  | 0, lexer => lexer.next?
  | n + 1, lexer =>
    let step := lexer.next?
    if step.1.isSome then nth? n step.2 else (none, step.2)

/-- The next `n` tokens, or all if there are fewer. -/
def take : Nat → Lexer → List Token × Lexer
  | 0, lexer => ([], lexer)
  | n + 1, lexer =>
    let step := lexer.next?
    match step.1 with
    | some token =>
      let later := take n step.2
      (token :: later.1, later.2)
    | none => ([], step.2)

/-- All tokens that are left. -/
def collect (lexer : Lexer) : List Token × Lexer :=
  let step := lexer.next?
  if h : step.1.isSome then
    let later := collect step.2
    (step.1.get h :: later.1, later.2)
  else ([], step.2)
termination_by lexer.rest.length
decreasing_by exact lexer.next?_rest_length h

/-- How many tokens are left; they are used up. -/
def count (lexer : Lexer) : Nat × Lexer := (lexer.collect.1.length, lexer.collect.2)

/-- The last token that is left; all are used up. -/
def last? (lexer : Lexer) : Option Token × Lexer := (lexer.collect.1.getLast?, lexer.collect.2)

/-- The tokens ahead, the end of input left out. -/
def tokens (lexer : Lexer) : List Token :=
  let step := lexer.nextToken
  if _ : step.1.kind = .endOfInput then [] else step.1 :: step.2.tokens
termination_by lexer.rest.length
decreasing_by exact lexer.nextToken_rest_length (by assumption)

theorem tokens_of_end {lexer : Lexer} (h : lexer.nextToken.1.kind = .endOfInput) :
    lexer.tokens = [] := by
  rw [tokens]
  exact dif_pos h

theorem tokens_of_token {lexer : Lexer} (h : lexer.nextToken.1.kind ≠ .endOfInput) :
    lexer.tokens = lexer.nextToken.1 :: lexer.nextToken.2.tokens := by
  rw [tokens]
  exact dif_neg h

/-- The end of input is none of the tokens ahead. -/
theorem kind_ne_of_mem_tokens (lexer : Lexer) :
    ∀ token ∈ lexer.tokens, token.kind ≠ .endOfInput := by
  fun_induction tokens lexer with
  | case1 => simp
  | case2 lexer step notEnded ih =>
    intro token member
    rcases List.mem_cons.1 member with rfl | member
    · exact notEnded
    · exact ih token member

/-- The tokens ahead, closed by the end of input. -/
def tokenize (lexer : Lexer) : List Token := lexer.tokens ++ [.endOfInput lexer.finish]

end Lexer

end MonkeyLang
