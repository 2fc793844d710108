import MonkeyLang.Proofs.Coupling
import MonkeyLang.Proofs.Spelling

/-!
# Parsing the rest of a text

A text that is parsed at the end of a longer one gives the same program and the same faults as by
itself, but for the places of the tokens.  `Location.shift` says where a place comes to lie, and
through the view `View.moved` a tree is seen as it comes out in the longer text.

The lexer comes first: what is read from a place further on are the same tokens, moved
(`Lexer.tokens_shift`), and at a semicolon or another character that is always a lexeme by itself a
text falls into two parts which are read one after the other (`Lexer.tokens_extend`).  For the
parser two runs over tokens that look the same one by one are coupled (`Coupling.alongside`).
-/

namespace MonkeyLang

/-! ### Places -/

namespace Location

/-- Where a place of a text comes to lie if the text begins at another place than the start. -/
def shift (origin place : Location) : Location :=
  if place.line = 1 then ⟨origin.line, origin.column + place.column - 1⟩
  else ⟨origin.line + place.line - 1, place.column⟩

/-- Lines and columns are counted from one. -/
def Counted (place : Location) : Prop := 0 < place.line ∧ 0 < place.column

theorem counted_start : start.Counted := ⟨Nat.one_pos, Nat.one_pos⟩

theorem Counted.next {place : Location} (h : place.Counted) (c : Char) :
    (place.next c).Counted := by
  unfold Location.next
  split
  · exact ⟨Nat.succ_pos _, Nat.one_pos⟩
  · exact ⟨h.1, Nat.succ_pos _⟩

theorem Counted.after {place : Location} (h : place.Counted) (text : List Char) :
    (place.after text).Counted := by
  induction text generalizing place with
  | nil => exact h
  | cons c text ih => exact ih (h.next c)

/-- A step leads to the same place before and after shifting. -/
theorem shift_next (origin : Location) {place : Location} (h : place.Counted) (c : Char) :
    origin.shift (place.next c) = (origin.shift place).next c := by
  have positive : 0 < place.line := h.1
  have positive' : 0 < place.column := h.2
  by_cases feed : c = '\n'
  · have line : origin.line + (place.line + 1) - 1 = origin.line + place.line - 1 + 1 := by omega
    by_cases first : place.line = 1
    · simp [next, shift, feed, first]
    · have later : place.line ≠ 0 := by omega
      simp [next, shift, feed, first, later, line]
  · have column :
        origin.column + (place.column + 1) - 1 = origin.column + place.column - 1 + 1 := by
      omega
    by_cases first : place.line = 1
    · simp [next, shift, feed, first, column]
    · simp [next, shift, feed, first]

/-- Walking leads to the same place before and after shifting. -/
theorem shift_after (origin : Location) {place : Location} (h : place.Counted)
    (text : List Char) : origin.shift (place.after text) = (origin.shift place).after text := by
  induction text generalizing place with
  | nil => rfl
  | cons c text ih => rw [after_cons, after_cons, ih (h.next c), shift_next origin h]

end Location

/-! ### Tokens that are moved -/

/-- A token of a text that begins at another place than the start. -/
def Token.shift (origin : Location) (token : Token) : Token :=
  { token with location := origin.shift token.location }

theorem Token.shift_endOfInput (origin place : Location) :
    (endOfInput place).shift origin = endOfInput (origin.shift place) := rfl

namespace Lexer

/-- A lexer that reads the same text from another place than the start. -/
def shift (origin : Location) (lexer : Lexer) : Lexer :=
  { lexer with location := origin.shift lexer.location }

variable {lexer : Lexer}

theorem nextToken_shift (origin : Location) (h : lexer.location.Counted) :
    (lexer.shift origin).nextToken =
        (lexer.nextToken.1.shift origin, lexer.nextToken.2.shift origin) ∧
      lexer.nextToken.2.location.Counted := by
  cases ahead : lexer.rest.dropWhile isSpace with
  | nil =>
    have ahead' : (lexer.shift origin).rest.dropWhile isSpace = [] := ahead
    rw [nextToken_of_blank ahead, nextToken_of_blank ahead']
    refine ⟨?_, h.after _⟩
    simp only [shift, ← Location.shift_after origin h, Token.shift_endOfInput]
  | cons c rest =>
    have ahead' : (lexer.shift origin).rest.dropWhile isSpace = c :: rest := ahead
    rw [nextToken_of_ahead ahead, nextToken_of_ahead ahead']
    refine ⟨?_, (h.after _).after _⟩
    simp only [shift, Token.shift, ← Location.shift_after origin h,
      ← Location.shift_after origin (h.after (lexer.rest.takeWhile isSpace))]

/-- The same text gives the same tokens wherever it begins, but for their places. -/
theorem tokens_shift (origin : Location) (h : lexer.location.Counted) :
    (lexer.shift origin).tokens = lexer.tokens.map (Token.shift origin) := by
  fun_induction tokens lexer with
  | case1 lexer step ended =>
    obtain ⟨next, -⟩ := nextToken_shift origin h
    exact tokens_of_end (by rw [next]; exact ended)
  | case2 lexer step notEnded ih =>
    obtain ⟨next, counted⟩ := nextToken_shift origin h
    rw [tokens_of_token (by rw [next]; exact notEnded), next, List.map_cons, ← ih counted]

theorem finish_shift (origin : Location) (h : lexer.location.Counted) :
    (lexer.shift origin).finish = origin.shift lexer.finish :=
  (Location.shift_after origin h lexer.rest).symm

/-- A lexer that reads more text behind the text of another one. -/
def extend (lexer : Lexer) (text : List Char) : Lexer := { lexer with rest := lexer.rest ++ text }

/-- A character that is a lexeme by itself, whatever stands behind it, and prolongs no other. -/
structure Separates (c : Char) (behind : List Char) : Prop where
  space : isSpace c = false
  breaks : Lexeme.Breaks (c :: behind)
  single : Lexeme.first c behind = (⟨Kind.ofSymbol c, [c]⟩, behind)

theorem separates_semicolon (behind : List Char) : Separates ';' behind :=
  ⟨rfl, Lexeme.breaks_semicolon behind, Lexeme.first_of_symbol rfl rfl (by simp)⟩

variable {c : Char} {behind : List Char}

/-- A token in front of a character that separates is read as if the text ended there. -/
theorem nextToken_extend (separates : Separates c behind)
    (h : lexer.nextToken.1.kind ≠ .endOfInput) :
    (lexer.extend (c :: behind)).nextToken =
      (lexer.nextToken.1, lexer.nextToken.2.extend (c :: behind)) := by
  cases ahead : lexer.rest.dropWhile isSpace with
  | nil => simp [nextToken_of_blank ahead, Token.endOfInput] at h
  | cons d more =>
    have split := List.takeWhile_append_dropWhile (p := isSpace) (l := lexer.rest)
    rw [ahead] at split
    have spaces : ∀ d ∈ lexer.rest.takeWhile isSpace, isSpace d = true :=
      List.all_eq_true.1 List.all_takeWhile
    have starts : isSpace d = false := by
      have stop := List.head?_dropWhile_not isSpace lexer.rest
      rwa [ahead] at stop
    have longer : (lexer.extend (c :: behind)).rest =
        lexer.rest.takeWhile isSpace ++ (d :: (more ++ c :: behind)) := by
      show lexer.rest ++ c :: behind = _
      rw [← List.cons_append, ← List.append_assoc, split]
    have stops : ∀ x, (d :: (more ++ c :: behind)).head? = some x → isSpace x = false := by
      rintro _ ⟨⟩
      exact starts
    obtain ⟨taken, dropped⟩ := Lexeme.run_append spaces stops
    rw [← longer] at taken dropped
    rw [nextToken_of_ahead ahead, nextToken_of_ahead dropped, taken,
      Lexeme.first_append_of_breaks d more separates.breaks]
    rfl

/-- Where the text is over but for white space, the character that separates is read. -/
theorem nextToken_extend_of_end (separates : Separates c behind)
    (h : lexer.nextToken.1.kind = .endOfInput) :
    (lexer.extend (c :: behind)).nextToken =
      (⟨.ofSymbol c, String.ofList [c], lexer.finish⟩,
        { lexer with rest := behind, location := lexer.finish.next c }) := by
  cases ahead : lexer.rest.dropWhile isSpace with
  | cons d more =>
    rw [nextToken_of_ahead ahead] at h
    exact absurd h (Lexeme.first_kind_ne d more)
  | nil =>
    have spaces : ∀ d ∈ lexer.rest, isSpace d = true := by
      have whole := List.takeWhile_append_dropWhile (p := isSpace) (l := lexer.rest)
      rw [ahead, List.append_nil] at whole
      rw [← whole]
      exact List.all_eq_true.1 List.all_takeWhile
    have stops : ∀ x, (c :: behind).head? = some x → isSpace x = false := by
      rintro _ ⟨⟩
      exact separates.space
    obtain ⟨taken, dropped⟩ := Lexeme.run_append spaces stops
    have dropped : (lexer.extend (c :: behind)).rest.dropWhile isSpace = c :: behind := dropped
    have taken : (lexer.extend (c :: behind)).rest.takeWhile isSpace = lexer.rest := taken
    rw [nextToken_of_ahead dropped, taken, separates.single]
    rfl

/-- At a character that separates a text falls into two parts, which are read one after the
other. -/
theorem tokens_extend (lexer : Lexer) (separates : Separates c behind) :
    (lexer.extend (c :: behind)).tokens =
      lexer.tokens ++ ⟨.ofSymbol c, String.ofList [c], lexer.finish⟩ ::
        { lexer with rest := behind, location := lexer.finish.next c : Lexer }.tokens := by
  fun_induction tokens lexer with
  | case1 lexer step ended =>
    have next := nextToken_extend_of_end separates ended
    have real : Kind.ofSymbol c ≠ .endOfInput := by
      have kind := Lexeme.first_kind_ne c behind
      rwa [separates.single] at kind
    rw [tokens_of_token (by rwa [next]), next, List.nil_append]
  | case2 lexer step notEnded ih =>
    have next := nextToken_extend separates notEnded
    have same : step.2.exhausted = lexer.exhausted := by
      show lexer.nextToken.2.exhausted = lexer.exhausted
      cases ahead : lexer.rest.dropWhile isSpace with
      | nil => rw [nextToken_of_blank ahead]
      | cons c more => rw [nextToken_of_ahead ahead]
    have finish : step.2.finish = lexer.finish := lexer.finish_nextToken
    rw [tokens_of_token (by rw [next]; exact notEnded), next, ih, finish, same, List.cons_append]

end Lexer

/-! ### Trees and events that are moved -/

/-- A tree of a text that begins at another place than the start. -/
def View.moved (origin : Location) : View :=
  ⟨Token.shift origin, Token.shift origin, fun _ => false⟩

/-- A token looks like the one that is moved. -/
theorem similar_shift (origin : Location) (token : Token) :
    Similar (.moved origin) .full token (token.shift origin) :=
  ⟨rfl, rfl, rfl, rfl, rfl⟩

/-- A moved fault is found at the moved place. -/
theorem Fault.location_view_moved (origin : Location) (fault : Fault) :
    (fault.view (.moved origin)).location = origin.shift fault.location := by
  cases fault <;> rfl

/-- A moved fault has the same wording. -/
theorem Fault.message_view_moved (origin : Location) (fault : Fault) :
    (fault.view (.moved origin)).message = fault.message :=
  fault.message_view fun _ => rfl

/-- An event through a view. -/
def Event.view (v : View) : Event → Event
  | .began token => .began (v.node token)
  | .completed => .completed
  | .failed fault => .failed (fault.view v)

theorem Event.view_full (event : Event) : event.view .full = event := by
  cases event with
  | began token => rfl
  | completed => rfl
  | failed fault => rw [view, fault.view_full]

theorem Event.fault?_view (v : View) (event : Event) :
    (event.view v).fault? = event.fault?.map (Fault.view v) := by
  cases event <;> rfl

/-- The faults among events that are seen through a view are seen through it as well. -/
theorem filterMap_fault?_view (v : View) (events : List Event) :
    (events.map (Event.view v)).filterMap Event.fault? =
      (events.filterMap Event.fault?).map (Fault.view v) := by
  have same : Event.fault? ∘ Event.view v = fun event => event.fault?.map (Fault.view v) :=
    funext (Event.fault?_view v)
  rw [List.filterMap_map, same, List.map_filterMap]

/-! ### Two runs over tokens that look the same -/

/-- The tokens ahead look the same one by one.  The same has happened in both runs, but for what is
in `base`, which happened before the second run came to the first position of the other one. -/
structure Alongside (left right : View) (base : List Event) (s t : State) : Prop where
  tokens : List.Forall₂ (Similar left right) s.tokens t.tokens
  finish : Similar left right (.endOfInput s.finish) (.endOfInput t.finish)
  braceDepth : s.braceDepth = t.braceDepth
  nesting : s.nesting = t.nesting
  events : t.events.map (Event.view right) = s.events.map (Event.view left) ++ base

namespace Alongside

variable {left right : View} {base : List Event} {s t : State}

/-- What stands first looks the same, also where nothing is left. -/
theorem similar_head {tokens tokens' : List Token} {ending ending' : Token}
    (all : List.Forall₂ (Similar left right) tokens tokens')
    (ends : Similar left right ending ending') :
    Similar left right (tokens.head?.getD ending) (tokens'.head?.getD ending') := by
  cases all with
  | nil => exact ends
  | cons first _ => exact first

theorem tail {tokens tokens' : List Token}
    (all : List.Forall₂ (Similar left right) tokens tokens') :
    List.Forall₂ (Similar left right) tokens.tail tokens'.tail := by
  cases all with
  | nil => exact .nil
  | cons _ others => exact others

theorem similar (h : Alongside left right base s t) : Similar left right s.current t.current :=
  similar_head h.tokens h.finish

theorem similar_peek (h : Alongside left right base s t) : Similar left right s.peek t.peek :=
  similar_head (tail h.tokens) h.finish

theorem advance (h : Alongside left right base s t) :
    Alongside left right base s.advance t.advance where
  tokens := tail h.tokens
  finish := h.finish
  braceDepth := by
    rw [State.advance_braceDepth, State.advance_braceDepth, h.braceDepth, h.similar_peek.kind]
  nesting := h.nesting
  events := h.events

theorem note (h : Alongside left right base s t) {event event' : Event}
    (same : event'.view right = event.view left) :
    Alongside left right base (s.note event) (t.note event') where
  tokens := h.tokens
  finish := h.finish
  braceDepth := h.braceDepth
  nesting := h.nesting
  events := by
    simp only [State.note, List.map_cons, same, h.events, List.cons_append]

end Alongside

namespace Coupling

/-- Two runs over tokens that look the same one by one. -/
def alongside (left right : View) (base : List Event) : Coupling where
  left := left
  right := right
  Near := Alongside left right base
  Ready _ := True
  Lost _ _ := False
  Doomed _ := False
  similar near := near.similar
  similar_peek near _ := near.similar_peek
  advance near _ := .inl ⟨near.advance, trivial⟩
  began near := near.note (by rw [Event.view, Event.view, near.similar.node])
  completed near := near.note rfl
  ready _ _ := trivial
  lost h _ _ := h

variable {left right : View} {base : List Event}

theorem roams_alongside : (alongside left right base).Roams where
  similar_peek near := near.similar_peek
  advance near := .inl near.advance
  braceDepth near := near.braceDepth
  failed near same := near.note (congrArg Event.failed same.symm)
  doomed h := h.elim

theorem counts_alongside : (alongside left right base).Counts where
  nesting near := near.nesting
  near near _ := { near with nesting := rfl }
  ready _ _ := trivial
  lost h _ _ := h

end Coupling

/-- Over tokens that look the same, programs are read that look the same, and the same happens. -/
theorem State.statements_alongside {left right : View} {base : List Event} {s t : State}
    (near : Alongside left right base s t) (limit : Nat) :
    statementViews right (t.statements limit).1 = statementViews left (s.statements limit).1 ∧
      (t.statements limit).2.events.map (Event.view right) =
        (s.statements limit).2.events.map (Event.view left) ++ base := by
  have roams : (Coupling.alongside left right base).Roams := Coupling.roams_alongside
  have agree := Coupling.counts_alongside.agree_expression
    (fun _ h => roams.agree_block (h .lowest)) limit .lowest
  rw [statements_eq_statementsBy, statements_eq_statementsBy]
  obtain ⟨near, same⟩ | lost := roams.statementsBy _ _ agree near trivial
  · exact ⟨same.symm, near.events⟩
  · exact lost.elim

/-- Every position corresponds to itself. -/
theorem Alongside.refl (s : State) : Alongside .full .full [] s s :=
  ⟨List.forall₂_same.2 fun token _ => similar_full token, similar_full _, rfl, rfl,
    (List.append_nil _).symm⟩

/-- An expression ends on a token at which no statement can be over. -/
theorem Parser.solid_of_expression {limit : Nat} {bound : Precedence} {s t : State}
    {e : Expression} (run : (expression limit bound).run s = (.ok e, t)) :
    t.current.kind.Solid := by
  have roams : (Coupling.alongside .full .full []).Roams := Coupling.roams_alongside
  have meets := Coupling.counts_alongside.agree_expression
    (fun _ h => roams.agree_block (h .lowest)) limit bound (Alongside.refl s) trivial
  rw [run] at meets
  exact meets.solid id rfl

end MonkeyLang
