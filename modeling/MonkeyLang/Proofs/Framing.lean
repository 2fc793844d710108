import MonkeyLang.Proofs.Diagnosis
import MonkeyLang.Proofs.Formatting

/-!
# Answers in lines

Without colours the answer of a session to a line that is not blank is framed by lines: one for each
token, or one with the canonical text, or one for each fault below the banner
(`Session.framed_answer`).  So it can be taken apart again, and a list of tokens can be decoded: from
each of its lines the kind and the literal of the token are read back (`Lexeme.ofListing?_listing`).

All of this rests on one fact: what is made of a source text never has a line end of its own.  The
lexer skips line ends as white space, so no literal has one, not even that of an illegal token
(`Lexer.unbroken_of_mem_tokens`).  A message adds to the literal of a token of the text
(`Parsed.founded_ofString`) nothing but fixed words and a number, and the canonical text stands on
one line (`Program.oneLine_render`).
-/

namespace MonkeyLang

/-! ### Line ends -/

/-- There is no line end in the text. -/
def Unbroken (text : String) : Prop := '\n' ∉ text.toList ∧ '\r' ∉ text.toList

instance (text : String) : Decidable (Unbroken text) :=
  inferInstanceAs (Decidable ('\n' ∉ text.toList ∧ '\r' ∉ text.toList))

@[simp] theorem unbroken_append {first second : String} :
    Unbroken (first ++ second) ↔ Unbroken first ∧ Unbroken second := by
  simp only [Unbroken, String.toList_append, List.mem_append, not_or]
  exact and_and_and_comm

theorem unbroken_of_not_isSpace {text : String} (h : ∀ c ∈ text.toList, isSpace c = false) :
    Unbroken text := by
  constructor <;> intro member <;> exact absurd (h _ member) (by decide)

theorem unbroken_repr (n : Nat) : Unbroken n.repr := by
  refine unbroken_of_not_isSpace fun c member => ?_
  rw [Nat.toList_repr] at member
  exact Lexeme.isSpace_of_isDigit (Nat.isDigit_of_mem_toDigits (by decide) (by decide) member)

theorem Kind.unbroken_tag (kind : Kind) : Unbroken kind.tag := by
  cases kind <;> decide +kernel

/-- The name of a kind is one word. -/
theorem Kind.all_tag (kind : Kind) : (kind.tag.toList.all fun c => decide (c ≠ ' ')) = true := by
  cases kind <;> decide +kernel

theorem Kind.unbroken_description (kind : Kind) : Unbroken kind.description := by
  cases kind <;> decide +kernel

/-- The literals of a text have no line ends. -/
theorem Lexer.unbroken_of_mem_tokens (lexer : Lexer) :
    ∀ token ∈ lexer.tokens, Unbroken token.literal := by
  intro token member
  exact unbroken_of_not_isSpace (lexer.whole_of_mem_tokens token member).spelled.solid.2.1

/-- The end of input, which is one of them here, has no literal at all. -/
theorem Lexer.unbroken_of_mem_tokenize (lexer : Lexer) :
    ∀ token ∈ lexer.tokenize, Unbroken token.literal := by
  intro token member
  rcases List.mem_append.1 member with member | member
  · exact lexer.unbroken_of_mem_tokens token member
  · obtain rfl := List.mem_singleton.1 member
    exact (by decide : Unbroken "")

/-- A phrase for a token adds no line end to its literal, -/
theorem Token.unbroken_description {token : Token} (h : Unbroken token.literal) :
    Unbroken token.description := by
  rw [description]
  split
  case h_4 => exact token.kind.unbroken_description
  all_goals
    simp only [unbroken_append]
    exact ⟨⟨⟨token.kind.unbroken_description, by decide⟩, h⟩, by decide⟩

/-- and neither does a message. -/
theorem Fault.unbroken_message {fault : Fault} (h : Unbroken fault.token.literal) :
    Unbroken fault.message := by
  cases fault with
  | unexpected wanted found =>
    have phrase := found.unbroken_description h
    show Unbroken ("expected " ++ wanted.description ++ ", found " ++ found.description)
    simp only [unbroken_append]
    exact ⟨⟨⟨by decide +kernel, wanted.unbroken_description⟩, by decide +kernel⟩, phrase⟩
  | noOperand found =>
    show Unbroken ("no prefix parse function for " ++ found.kind.description ++ " found")
    simp only [unbroken_append]
    exact ⟨⟨by decide +kernel, found.kind.unbroken_description⟩, by decide +kernel⟩
  | tooLarge literal =>
    show Unbroken ("could not parse '" ++ literal.literal ++ "' as integer")
    simp only [unbroken_append]
    exact ⟨⟨by decide +kernel, h⟩, by decide +kernel⟩
  | tooDeep levels found =>
    show Unbroken ("expression nested more than " ++ levels.repr ++ " levels deep")
    simp only [unbroken_append]
    exact ⟨⟨by decide +kernel, unbroken_repr levels⟩, by decide +kernel⟩

theorem Parsed.unbroken_message {source : String} :
    ∀ fault ∈ (ofString source).faults, Unbroken fault.message := by
  intro fault member
  have among := (founded_ofString source fault member).1
  exact fault.unbroken_message (Lexer.unbroken_of_mem_tokenize _ _ among)

theorem Parsed.unbroken_render (source : String) : Unbroken (ofString source).program.render :=
  (Program.oneLine_render _ (coherent_ofString source)).not_mem

/-! ### Tokens in a list -/

/-- The line that lists a token, without its line end. -/
def Token.listing (token : Token) : String := token.kind.tag ++ " '" ++ token.literal ++ "'"

theorem Token.unbroken_listing {token : Token} (h : Unbroken token.literal) :
    Unbroken token.listing := by
  simp only [listing, unbroken_append]
  exact ⟨⟨⟨token.kind.unbroken_tag, by decide⟩, h⟩, by decide⟩

/-- The kind that is listed under a name. -/
def Kind.ofTag? (tag : List Char) : Option Kind := all.find? fun kind => kind.tag.toList = tag

theorem Kind.ofTag?_tag (kind : Kind) : ofTag? kind.tag.toList = some kind := by
  cases kind <;> decide +kernel

/-- The kind and the literal that are read from a line that lists a token: the name of the kind ends
at the first space, and the literal stands between the quotes behind it. -/
def Lexeme.ofListing? (line : String) : Option Lexeme :=
  let tag := line.toList.takeWhile (· ≠ ' ')
  let behind := line.toList.dropWhile (· ≠ ' ')
  (Kind.ofTag? tag).map fun kind => ⟨kind, (behind.drop 2).dropLast⟩

/-- A token can be told from its line, whatever its literal is. -/
theorem Lexeme.ofListing?_listing (token : Token) :
    ofListing? token.listing = some token.lexeme := by
  -- the first space of the line ends the name, so the literal may hold anything, even a quote
  have apart := List.all_eq_true.1 token.kind.all_tag
  have line : token.listing.toList =
      token.kind.tag.toList ++ ' ' :: '\'' :: (token.literal.toList ++ ['\'']) := by
    simp [Token.listing]
  have before : token.listing.toList.takeWhile (· ≠ ' ') = token.kind.tag.toList := by
    rw [line, List.takeWhile_append_of_pos apart]
    simp
  have behind : token.listing.toList.dropWhile (· ≠ ' ') =
      ' ' :: '\'' :: (token.literal.toList ++ ['\'']) := by
    rw [line, List.dropWhile_append_of_pos apart]
    simp
  simp only [ofListing?, before, behind, Kind.ofTag?_tag, Option.map_some, List.drop_succ_cons,
    List.drop_zero, List.dropLast_concat]
  rfl

/-- The tokens can be told from the lines that list them. -/
theorem ofListing?_lines {tokens : List Token} (h : ∀ token ∈ tokens, Unbroken token.literal) :
    ((lines (bytesOf (unlines (tokens.map Token.listing)))).filterMap decode?).filterMap
      Lexeme.ofListing? = tokens.map Token.lexeme := by
  have unbroken : ∀ text ∈ tokens.map Token.listing, Unbroken text :=
    List.forall_mem_map.2 fun token member => token.unbroken_listing (h token member)
  have decoded : decode? ∘ bytesOf = some := funext decode?_bytesOf
  have told : Lexeme.ofListing? ∘ Token.listing = some ∘ Token.lexeme :=
    funext Lexeme.ofListing?_listing
  rw [lines_bytesOf_unlines unbroken, List.filterMap_map, decoded, List.filterMap_some,
    List.filterMap_map, told, List.filterMap_eq_map]

/-! ### What an answer writes -/

/-- Texts that are written one a line. -/
theorem written_lines {α : Type} (text : α → String) (items : List α) :
    written (items.map fun item => .write (text item ++ "\n")) = unlines (items.map text) := by
  induction items with
  | nil => rfl
  | cons item items ih => rw [List.map_cons, written, ih, List.map_cons, unlines]

namespace Session

/-- What stands over a list of faults. -/
def banner : String :=
  face ++ "Woops! We ran into some monkey business here!\n" ++ " parser errors:\n"

/-- The banner and the messages. -/
theorem written_complaint (messages : List String) :
    written (complaint false messages) = banner ++ unlines (messages.map ("\t" ++ ·)) := by
  rw [complaint, written_append, written_lines ("\t" ++ ·) messages]
  simp [written, banner, Color.paint, String.append_assoc]

section
variable {config : Config} {line : String} (colorless : config.color = false)
  (nonBlank : isBlank line = false)
include colorless nonBlank

/-- The answer with the tokens. -/
theorem written_answer_tokens (mode : config.mode = .tokens) :
    written (answer config line) =
      unlines ((Lexer.ofString line).tokens.map Token.listing) := by
  have listed : tokenLine false = fun token => token.listing ++ "\n" := by
    funext token
    simp only [tokenLine, Token.listing, Color.paint, String.append_assoc]
    rfl
  rw [answer, nonBlank, if_neg Bool.false_ne_true, written, evaluate, mode]
  simp only [colorless, listed]
  exact written_lines _ _

/-- The answer to a line with faults. -/
theorem written_answer_faults (mode : config.mode = .tree)
    (broken : (Parsed.ofString line).faults ≠ []) :
    written (answer config line) = banner ++
      unlines ((Parsed.ofString line).faults.map fun fault => "\t" ++ fault.message) := by
  have nonempty : (Parsed.ofString line).faults.isEmpty = false := by simpa using broken
  rw [answer, nonBlank, if_neg Bool.false_ne_true, written, evaluate, mode]
  simp only [nonempty, colorless, Bool.false_eq_true, if_false]
  rw [written_append, written_logs, String.empty_append, written_complaint, List.map_map]
  rfl

end

/-- **Answers are framed by lines and can be decoded.**  Let a line be not blank, and let colours be
off.  Then the line has a token, and an output without a limit gets just what is said here.  In a
list of tokens there is one line for each token, in order, and the lines tell the kinds and the
literals.  Instead of the canonical text, which is one line and not empty, a line with faults gets
the banner and one line behind a tab for each fault, in order.  For no literal, canonical text or
message of any source text has a line end of its own. -/
theorem framed_answer (config : Config) (line : String) (colorless : config.color = false)
    (nonBlank : isBlank line = false) :
    let tokens := (Lexer.ofString line).tokens
    let parsed := Parsed.ofString line
    let printed := written (answer config line)
    tokens ≠ [] ∧
    (∀ console : Console, console.Open →
      (console.run (answer config line)).bytes = console.bytes ++ printed.toUTF8) ∧
    (config.mode = .tokens →
      printed = unlines (tokens.map Token.listing) ∧
      (∀ token ∈ tokens, Unbroken token.listing) ∧
      ((lines (bytesOf printed)).filterMap decode?).filterMap Lexeme.ofListing? =
        tokens.map Token.lexeme) ∧
    (config.mode = .tree → parsed.faults = [] →
      printed = unlines [parsed.program.render] ∧ parsed.program.render ≠ "") ∧
    (config.mode = .tree → parsed.faults ≠ [] →
      printed = banner ++ unlines (parsed.faults.map fun fault => "\t" ++ fault.message)) ∧
    ∀ source,
      (∀ token ∈ (Lexer.ofString source).tokenize, Unbroken token.literal) ∧
      Unbroken (Parsed.ofString source).program.render ∧
      ∀ fault ∈ (Parsed.ofString source).faults, Unbroken fault.message := by
  intro tokens parsed printed
  have literals := (Lexer.ofString line).unbroken_of_mem_tokens
  refine ⟨fun none => ?_, fun console opened => opened.bytes_run (proceeds_answer config line),
    fun mode => ⟨?_, ?_, ?_⟩, fun mode clean => ⟨?_, fun empty => ?_⟩,
    written_answer_faults colorless nonBlank, fun source => ⟨?_, ?_, ?_⟩⟩
  · -- what the lexer skips is white space to the session, too
    have lexemes := Lexer.map_lexeme_tokens (.ofString line)
    have none : (Lexer.ofString line).tokens = [] := none
    rw [none] at lexemes
    exact absurd (isBlank_of_all_eq_nil lexemes.symm) (by rw [nonBlank]; decide)
  · exact written_answer_tokens colorless nonBlank mode
  · exact fun token member => token.unbroken_listing (literals token member)
  · have listed : printed = unlines (tokens.map Token.listing) :=
      written_answer_tokens colorless nonBlank mode
    rw [listed]
    exact ofListing?_lines literals
  · exact (written_answer mode nonBlank clean).trans String.append_empty.symm
  · have solid := Program.isBlank_render (Parsed.coherent_ofString line)
      (Parsed.statements_ne_nil nonBlank clean)
    have empty : (Parsed.ofString line).program.render = "" := empty
    rw [empty] at solid
    exact absurd solid (by decide)
  · exact (Lexer.ofString source).unbroken_of_mem_tokenize
  · exact Parsed.unbroken_render source
  · exact Parsed.unbroken_message

/-- Quotes and separators that the lexer does not know do not break the frame.  The first line is
answered with its tokens, and the second one, which is broken, with a fault. -/
theorem framed_answer_strays :
    let tokens : Config := ⟨.tokens, "", false⟩
    let tree : Config := ⟨.tree, "", false⟩
    let listed := written (answer tokens "'\u2028 x")
    isBlank "'\u2028 x" = false ∧
      listed = "Illegal '''\nIllegal '\u2028'\nIdent 'x'\n" ∧
      ((lines (bytesOf listed)).filterMap decode?).filterMap Lexeme.ofListing? =
        [⟨.illegal, ['\'']⟩, ⟨.illegal, ['\u2028']⟩, ⟨.identifier, ['x']⟩] ∧
      isBlank "\u3000 x" = false ∧
      written (answer tree "\u3000 x") =
        banner ++ "\tno prefix parse function for illegal character found\n" := by
  intro tokens tree listed
  have solid : isBlank "'\u2028 x" = false := by decide +kernel
  have solid' : isBlank "\u3000 x" = false := by decide +kernel
  have lexemes : (Lexer.ofString "'\u2028 x").tokens.map Token.lexeme =
      [⟨.illegal, ['\'']⟩, ⟨.illegal, ['\u2028']⟩, ⟨.identifier, ['x']⟩] := by decide +kernel
  have broken : (Parsed.ofString "\u3000 x").faults ≠ [] := by decide +kernel
  obtain ⟨-, -, list, -⟩ := framed_answer tokens _ rfl solid
  obtain ⟨printed, -, decoded⟩ := list rfl
  obtain ⟨-, -, -, -, complaint, -⟩ := framed_answer tree _ rfl solid'
  refine ⟨solid, printed.trans ?_, decoded.trans lexemes, solid', (complaint rfl broken).trans ?_⟩
  · decide +kernel
  · exact congrArg (banner ++ ·) (by decide +kernel)

end Session

end MonkeyLang
