import MonkeyLang.Proofs.Coherence
import MonkeyLang.Proofs.Deepening
import MonkeyLang.Proofs.Isolation

/-!
# A text as the body of a function

The statements of a program and those of a block are read by two loops, which end at different
tokens, recover at different depths and have different ways to give up.  Nevertheless they agree:
if the braces of a text are balanced and it ends with a semicolon, then between the braces of a
function it is read as it is by itself, with the same statements and faults, whether it is broken
or not (`Parsed.ofString_function`).

Between the run over the body and the one over the text by itself a third one is put, the loop for
programs over the tokens of the body.  From the first of them it differs by one open brace
(`Enclosed`), and from the second by what stands behind the last semicolon (`Before`).  The first
pair parts at the closing brace, and the second one shows that no statement gets there.
-/

namespace MonkeyLang

/-! ### One brace deeper -/

/-- Where no brace is closed that is not open, the walk goes on behind the first token, and one more
open brace is one more behind it. -/
theorem depthAfter?_step {depth final : Nat} {token : Token} {tokens : List Token}
    (h : depthAfter? depth (token :: tokens) = some final) :
    depthAfter? (braceStep depth token.kind) tokens = some final ∧
      braceStep (depth + 1) token.kind = braceStep depth token.kind + 1 := by
  by_cases opens : token.kind = .leftBrace
  · rw [depthAfter?_leftBrace opens] at h
    rw [opens]
    exact ⟨h, rfl⟩
  by_cases closes : token.kind = .rightBrace
  · cases depth with
    | zero =>
      rw [depthAfter?_rightBrace_zero closes] at h
      exact absurd h (by simp)
    | succ depth =>
      rw [depthAfter?_rightBrace closes] at h
      rw [closes]
      exact ⟨h, rfl⟩
  · rw [depthAfter?_plain opens closes] at h
    rw [braceStep_plain ⟨opens, closes⟩, braceStep_plain ⟨opens, closes⟩]
    exact ⟨h, rfl⟩

/-- A walk that succeeds counts the braces that are open. -/
theorem openAfter_of_depthAfter? {depth final : Nat} {tokens : List Token}
    (h : depthAfter? depth tokens = some final) : openAfter depth tokens = final := by
  induction tokens generalizing depth with
  | nil => exact Option.some.inj h
  | cons token tokens ih => exact ih (depthAfter?_step h).1

/-- Both runs are at the same token before a closing brace.  In the first one that brace is still to
be closed, and in the second one no brace is open there. -/
structure Enclosed (closing : Token) (rest : List Token) (s t : State) : Prop where
  finish : s.finish = t.finish
  nesting : s.nesting = t.nesting
  events : s.events = t.events
  tokens : s.tokens = t.tokens
  braceDepth : s.braceDepth = t.braceDepth + 1
  ahead : ∃ first more, t.tokens = first :: (more ++ closing :: rest) ∧
    depthAfter? t.braceDepth more = some 0

variable {closing semicolon : Token} {rest : List Token} {s t : State}

namespace Enclosed

theorem current (h : Enclosed closing rest s t) : s.current = t.current := by
  rw [State.current, State.current, h.tokens, h.finish]

theorem peek (h : Enclosed closing rest s t) : s.peek = t.peek := by
  rw [State.peek, State.peek, h.tokens, h.finish]

/-- Both runs may move on, unless they come to the closing brace. -/
theorem advance (h : Enclosed closing rest s t) :
    Enclosed closing rest s.advance t.advance ∨ t.advance.tokens.length ≤ rest.length + 1 := by
  obtain ⟨first, more, ahead, balanced⟩ := h.ahead
  have tokens : t.advance.tokens = more ++ closing :: rest := congrArg List.tail ahead
  cases more with
  | nil => exact .inr (by rw [tokens]; exact Nat.le_refl _)
  | cons second more =>
    have peek : t.peek = second := by rw [State.peek, ahead]; rfl
    obtain ⟨balanced, deeper⟩ := depthAfter?_step balanced
    refine .inl ⟨h.finish, h.nesting, h.events, congrArg List.tail h.tokens, ?_, second, more,
      tokens, ?_⟩
    · rw [State.advance_braceDepth, State.advance_braceDepth, h.peek, h.braceDepth, peek, deeper]
    · rw [State.advance_braceDepth, peek]
      exact balanced

theorem note (h : Enclosed closing rest s t) (event : Event) :
    Enclosed closing rest (s.note event) (t.note event) :=
  { h with events := congrArg (event :: ·) h.events }

end Enclosed

namespace Coupling

/-- Two runs until they come to the closing brace. -/
def enclosed (closing : Token) (rest : List Token) : Coupling where
  left := .full
  right := .full
  Near := Enclosed closing rest
  Ready _ := True
  Lost _ t := t.tokens.length ≤ rest.length + 1
  Doomed _ := False
  similar near := near.current ▸ similar_full _
  similar_peek near _ := near.peek ▸ similar_full _
  advance near _ := near.advance.imp_left fun near => ⟨near, trivial⟩
  began near := by
    rw [← near.current]
    exact near.note _
  completed near := near.note _
  ready _ _ := trivial
  lost h _ moved := Nat.le_trans moved.tokens_suffix.length_le h

theorem lifts_enclosed : (enclosed closing rest).Lifts 1 where
  similar_peek near := near.peek ▸ similar_full _
  advance near := near.advance
  braceDepth near := near.braceDepth
  failed {s t f g} near same := by
    obtain rfl : f = g := Fault.eq_of_view_full same
    exact near.note _
  doomed h := h.elim

theorem counts_enclosed : (enclosed closing rest).Counts where
  nesting near := near.nesting
  near near _ := { near with nesting := rfl }
  ready _ _ := trivial
  lost h _ _ := h

end Coupling

/-! ### The two loops -/

/-- What lies ahead in the body of a function. -/
def Region.body (closing : Token) (rest : List Token) : Region := ⟨fun _ => True, 1, closing, rest⟩

/-- Before the last semicolon there is more ahead than the closing brace. -/
theorem Before.not_short {later later' : State} (h : Before semicolon later later' s t)
    (ends : later.tokens = closing :: rest) : ¬s.tokens.length ≤ rest.length + 1 := by
  obtain ⟨ahead, -, tokens, -⟩ := h.tokens
  rw [tokens, ends, List.length_append, List.length_cons, List.length_cons]
  omega

/-- The run over the body at `u`, the one over the text by itself at `v`, and the one between them
at `w` have come to the same token. -/
structure InBody (closing : Token) (rest : List Token) (semicolon : Token) (later later' : State)
    (u w v : State) : Prop where
  enclosed : Enclosed closing rest u w
  before : Before semicolon later later' w v
  within : (Region.body closing rest).Within u
  ends : later.tokens = closing :: rest
  nothing : later'.tokens = []

namespace InBody

variable {later later' u w v : State} {levels : Nat}

theorem closes (h : InBody closing rest semicolon later later' u w v) :
    closing.kind = .rightBrace := by
  obtain ⟨_, inside, _⟩ := h.within
  exact inside.closing.2.1

/-- Outside of all braces of the body, all runs may move on, unless they were at the last
semicolon. -/
theorem advance (h : InBody closing rest semicolon later later' u w v) (level : u.braceDepth = 1) :
    (u.advance.tokens = closing :: rest ∧ v.advance.tokens = []) ∨
      InBody closing rest semicolon later later' u.advance w.advance v.advance := by
  obtain ⟨-, tokens, tokens', -⟩ | ⟨-, before⟩ := h.before.advance
  · refine .inl ⟨?_, ?_⟩
    · rw [State.advance_tokens, h.enclosed.tokens, tokens, List.tail_cons, h.ends]
    · rw [State.advance_tokens, tokens', List.tail_cons, h.nothing]
  · have within := h.within.advance (Nat.le_of_eq level.symm)
    rcases h.enclosed.advance with enclosed | short
    · exact .inr ⟨enclosed, before, within, h.ends, h.nothing⟩
    · exact absurd short (before.not_short h.ends)

/-- All runs read the same statement or find the same fault. -/
theorem statement (h : InBody closing rest semicolon later later' u w v) (levels : Nat) :
    (∃ x mu mw mv, (Parser.statement (Parser.expressionWithin levels)).run u = (.ok x, mu) ∧
        (Parser.statement (Parser.expressionWithin levels)).run v = (.ok x, mv) ∧
        InBody closing rest semicolon later later' mu mw mv ∧
        u.current.kind.Plain ∧ mu.braceDepth = u.braceDepth) ∨
      ∃ f mu mw mv, (Parser.statement (Parser.expressionWithin levels)).run u = (.error f, mu) ∧
        (Parser.statement (Parser.expressionWithin levels)).run v = (.error f, mv) ∧
        InBody closing rest semicolon later later' mu mw mv := by
  have outer := Coupling.meets_statement (Coupling.counts_enclosed.agree_expressionWithin
    (fun _ h => Coupling.lifts_enclosed.agree_block (h .lowest)) levels .lowest) h.enclosed trivial
  have inner := Coupling.meets_statement (Coupling.counts_before.agree_expressionWithin
    (fun _ _ => Coupling.agree_block_before _) levels .lowest) h.before trivial
  have kept := Parser.keeps_statement
    (Parser.confined_expressionWithin levels (Region.body closing rest)) h.within
  generalize (Parser.statement (Parser.expressionWithin levels)).run u = result at outer kept ⊢
  generalize (Parser.statement (Parser.expressionWithin levels)).run w = result' at outer inner
  generalize (Parser.statement (Parser.expressionWithin levels)).run v = result'' at inner ⊢
  cases inner with
  | lost lost => exact lost.elim
  | doomed doomed => exact doomed.elim
  | @ok y z mw mv before same' =>
    cases outer with
    | lost short => exact absurd short (before.not_short h.ends)
    | doomed doomed => exact doomed.elim
    | @ok x _ mu _ enclosed same =>
      obtain rfl : x = y := by
        rw [← x.view_full, ← y.view_full]
        exact same
      obtain rfl : x = z := by
        rw [← x.view_full, ← z.view_full]
        exact same'
      obtain ⟨within, -, plain, level⟩ := kept
      exact .inl ⟨x, mu, mw, mv, rfl, rfl, ⟨enclosed, before, within, h.ends, h.nothing⟩, plain, level⟩
  | @error g g' mw mv before same' =>
    cases outer with
    | lost short => exact absurd short (before.not_short h.ends)
    | doomed doomed => exact doomed.elim
    | @error f _ mu _ enclosed same =>
      obtain rfl : f = g := Fault.eq_of_view_full same
      obtain rfl : f = g' := Fault.eq_of_view_full same'
      exact .inr ⟨f, mu, mw, mv, rfl, rfl, ⟨enclosed, before, kept.1, h.ends, h.nothing⟩⟩

/-- Recovery takes all runs to the same token outside of all braces of the body. -/
theorem resume (h : InBody closing rest semicolon later later' u w v) (f : Fault) :
    InBody closing rest semicolon later later' ((u.note (.failed f)).synchronize 1)
        ((w.note (.failed f)).synchronize 0) ((v.note (.failed f)).synchronize 0) ∧
      ((u.note (.failed f)).synchronize 1).braceDepth = 1 := by
  have above : 1 ≤ (u.note (.failed f)).braceDepth := by
    rw [State.note_braceDepth, h.enclosed.braceDepth]
    exact Nat.le_add_left 1 _
  have within : (Region.body closing rest).Within (u.note (.failed f)) := h.within
  obtain ⟨within, level, -⟩ := Parser.synchronize_within within above
  have before := (h.before.note (.failed f)).synchronize
  rcases Coupling.lifts_enclosed.synchronize 0 (h.enclosed.note (.failed f)) with enclosed | short
  · exact ⟨⟨enclosed, before, within, h.ends, h.nothing⟩, level⟩
  · exact absurd short (before.not_short h.ends)

/-- Where as many braces are open before the current token as in the body, this is not the closing
brace: another semicolon has to come before that. -/
theorem current_kind_ne (h : InBody closing rest semicolon later later' u w v)
    (counted : u.braceDepth = braceStep 1 u.current.kind) : u.current.kind ≠ .rightBrace := by
  intro closed
  have low : u.braceDepth < (Region.body closing rest).floor := by
    rw [counted, closed]
    exact Nat.one_pos
  have tokens : u.tokens = closing :: rest := (h.within.at_closing low).1
  refine h.before.not_short h.ends ?_
  rw [← h.enclosed.tokens, tokens]
  exact Nat.le_refl _

/-- Neither run has come to the end of input. -/
theorem notEnded (h : InBody closing rest semicolon later later' u w v) :
    u.current.kind ≠ .endOfInput ∧ v.current.kind ≠ .endOfInput := by
  have here : u.current.kind ≠ .endOfInput := h.within.current.2
  refine ⟨here, ?_⟩
  rw [← h.before.current, ← h.enclosed.current]
  exact here

/-- **The two loops agree.**  Over the body of a function the loop for blocks reads what the loop
for programs reads over the text by itself, and it stops at the closing brace. -/
theorem statementsFrom (levels : Nat) (h : InBody closing rest semicolon later later' u w v)
    (head : (Region.body closing rest).Inside 1 u.tokens)
    (counted : u.braceDepth = braceStep 1 u.current.kind) :
    ∃ ws m m', Parser.statementsFrom (Parser.expressionWithin levels) 1 u = (.ok ws, m) ∧
      v.statementsBy (Parser.expressionWithin levels) = (ws, m') ∧
      m.tokens = closing :: rest ∧ m.events = m'.events := by
  induction length : u.tokens.length using Nat.strongRecOn generalizing u w v with
  | ind n ih =>
    -- behind a statement that has been read or passed over
    have further {mu mw mv : State} (h : InBody closing rest semicolon later later' mu mw mv)
        (level : mu.braceDepth = 1) (shorter : mu.advance.tokens.length < n) :
        ∃ ws m m', Parser.statementsFrom (Parser.expressionWithin levels) 1 mu.advance =
            (.ok ws, m) ∧
          mv.advance.statementsBy (Parser.expressionWithin levels) = (ws, m') ∧
          m.tokens = closing :: rest ∧ m.events = m'.events := by
      rcases h.advance level with ⟨tokens, tokens'⟩ | h'
      · have closed : mu.advance.current.kind = .rightBrace := by
          rw [State.current, tokens]
          exact h.closes
        have ended : mv.advance.current.kind = .endOfInput := by
          rw [State.current, tokens']
          rfl
        exact ⟨[], _, _, Parser.statementsFrom_of_brace _ closed, State.statementsBy_of_end ended,
          tokens, h.enclosed.events.trans h.before.events⟩
      · have head := h.within.inside_advance (Nat.le_of_eq level.symm)
        have counted : mu.advance.braceDepth = braceStep 1 mu.advance.current.kind := by
          rw [State.advance_braceDepth, level]
          rfl
        rw [level] at head
        exact ih _ shorter h' head counted rfl
    have closed := h.current_kind_ne counted
    obtain ⟨ended, ended'⟩ := h.notEnded
    have positive := List.length_pos_iff.2 (u.tokens_ne_nil_of_current ended)
    obtain ⟨x, mu, mw, mv, step, step', h, plain, level⟩ | ⟨f, mu, mw, mv, step, step', h⟩ :=
      h.statement levels
    · have moved := Parser.length_le_of_run step
      have fewer := mu.length_advance
      obtain ⟨ws, m, m', run, run', tokens, events⟩ := further h
        (by rw [level, counted, braceStep_plain plain]) (by omega)
      refine ⟨x :: ws, m, m', ?_, ?_, tokens, events⟩
      · rw [Parser.statementsFrom_of_ok _ closed ended step, run]
        rfl
      · rw [State.statementsBy_of_ok ended' step', run']
    · have moved := Parser.length_le_of_run step
      have fewer := mu.length_resume 1 f
      have stays : ¬(mu.current.kind = .rightBrace ∧ mu.braceDepth < 1) := by
        rw [h.enclosed.braceDepth]
        exact fun run_into => absurd run_into.2 (Nat.not_lt.2 (Nat.le_add_left 1 _))
      obtain ⟨h', level⟩ := h.resume f
      rw [Parser.statementsFrom_of_error _ closed ended step, if_neg stays,
        State.statementsBy_of_error ended' step']
      exact further h' level (by omega)

end InBody

/-! ### The body of a function -/

/-- Places play no part in counting braces. -/
theorem depthAfter?_shift (origin : Location) (depth : Nat) (tokens : List Token) :
    depthAfter? depth (tokens.map (Token.shift origin)) = depthAfter? depth tokens := by
  induction tokens generalizing depth with
  | nil => rfl
  | cons token tokens ih =>
    simp only [List.map_cons, depthAfter?, ih]
    rfl

/-- What may stand between the braces of a function to be read as if it stood alone. -/
structure Standalone (body : List Token) : Prop where
  balanced : Balanced body
  notEnded : ∀ token ∈ body, token.kind ≠ .endOfInput
  last : ∀ token ∈ body.getLast?, token.kind = .semicolon

theorem Standalone.shift {body : List Token} (h : Standalone body) (origin : Location) :
    Standalone (body.map (Token.shift origin)) where
  balanced := by
    rw [balanced_iff, depthAfter?_shift]
    exact balanced_iff.1 h.balanced
  notEnded := by
    intro token member
    obtain ⟨other, inside, rfl⟩ := List.mem_map.1 member
    exact h.notEnded other inside
  last := by
    intro token member
    rw [List.getLast?_map] at member
    obtain ⟨other, isLast, rfl⟩ := Option.map_eq_some_iff.1 member
    exact h.last other isLast

/-- The loops agree over any body that may stand alone. -/
theorem Standalone.statementsFrom {body : List Token} (h : Standalone body)
    (closes : closing.kind = .rightBrace) (levels : Nat) {u : State}
    (tokens : u.tokens = body ++ closing :: rest)
    (counted : u.braceDepth = braceStep 1 u.current.kind) (finish : Location) :
    ∃ ws m m', Parser.statementsFrom (Parser.expressionWithin levels) 1 u = (.ok ws, m) ∧
      ({ State.ofTokensAfter u.events body finish with nesting := u.nesting } : State).statementsBy
        (Parser.expressionWithin levels) = (ws, m') ∧
      m.tokens = closing :: rest ∧ m.events = m'.events := by
  rcases List.eq_nil_or_concat body with rfl | ⟨front, semicolon, rfl⟩
  · have closed : u.current.kind = .rightBrace := by
      rw [State.current, tokens]
      exact closes
    exact ⟨[], _, _, Parser.statementsFrom_of_brace _ closed, State.statementsBy_of_end rfl, tokens,
      rfl⟩
  rw [List.concat_eq_append] at h tokens ⊢
  have semicolon_kind : semicolon.kind = .semicolon := h.last semicolon (by simp)
  have balanced := balanced_iff.1 h.balanced
  obtain ⟨first, more, whole⟩ := List.exists_cons_of_ne_nil
    (List.append_ne_nil_of_right_ne_nil front (List.cons_ne_nil semicolon []))
  have current : u.current = first := by
    rw [State.current, tokens, whole]
    rfl
  have step := depthAfter?_step (whole ▸ balanced)
  have enclosed : Enclosed closing rest u { u with braceDepth := braceStep 0 first.kind } :=
    ⟨rfl, rfl, rfl, rfl, by rw [counted, current, step.2], first, more,
      by rw [tokens, whole, List.cons_append], step.1⟩
  have before : Before semicolon { u with tokens := closing :: rest } { u with tokens := [], finish }
      { u with braceDepth := braceStep 0 first.kind }
      { State.ofTokensAfter u.events (front ++ [semicolon]) finish with nesting := u.nesting } := by
    refine ⟨⟨⟨rfl, rfl⟩, ?_, rfl, rfl⟩, semicolon_kind, front, 0, ?_, rfl, ?_, ?_, ?_⟩
    · rw [whole]
      rfl
    · exact tokens.trans (List.append_assoc _ _ _)
    · exact fun token member => h.notEnded token (List.mem_append_left _ member)
    · show _ = braceStep 0 u.current.kind
      rw [current]
    · have count := openAfter_of_depthAfter? balanced
      rwa [openAfter, List.foldl_append, List.foldl_cons, List.foldl_nil, semicolon_kind] at count
  have head : (Region.body closing rest).Inside ((Region.body closing rest).floor + 0)
      (front ++ [semicolon] ++ closing :: rest) :=
    Region.inside_of_depthAfter? Nat.one_pos closes trivial balanced
      fun token member => ⟨trivial, h.notEnded token member⟩
  rw [← tokens] at head
  have inBody : InBody closing rest semicolon _ _ u _ _ :=
    ⟨enclosed, before, ⟨1, head, counted⟩, rfl, rfl⟩
  exact inBody.statementsFrom levels head counted

/-! ### Functions without parameters -/

/-- The first token of a text that is a function. -/
def functionToken : Token := ⟨.functionWord, "fn", ⟨1, 1⟩⟩

/-- The brace that opens the body of a function without parameters. -/
def bodyToken : Token := ⟨.leftBrace, "\x7b", ⟨1, 6⟩⟩

/-- The tokens up to the body of a function without parameters. -/
def functionHead : List Token :=
  [functionToken, ⟨.leftParen, "(", ⟨1, 3⟩⟩, ⟨.rightParen, ")", ⟨1, 4⟩⟩, bodyToken]

/-- The place where the body of a function without parameters begins. -/
def bodyOrigin : Location := Location.start.after "fn() \x7b".toList

namespace Lexer

theorem tokens_of_nextToken {lexer later : Lexer} {token : Token}
    (read : lexer.nextToken = (token, later)) (real : token.kind ≠ .endOfInput) :
    lexer.tokens = token :: later.tokens := by
  have first : lexer.nextToken.1 = token := congrArg Prod.fst read
  rw [tokens_of_token (first ▸ real), read]

/-- The tokens up to the body are read first. -/
theorem tokens_functionHead (text : List Char) :
    (⟨"fn() \x7b".toList ++ text, .start, false⟩ : Lexer).tokens =
      functionHead ++ (⟨text, bodyOrigin, false⟩ : Lexer).tokens := by
  have word : (⟨"fn() \x7b".toList ++ text, .start, false⟩ : Lexer).nextToken =
      (functionToken, ⟨"() \x7b".toList ++ text, ⟨1, 3⟩, false⟩) := rfl
  have opening : (⟨"() \x7b".toList ++ text, ⟨1, 3⟩, false⟩ : Lexer).nextToken =
      (⟨.leftParen, "(", ⟨1, 3⟩⟩, ⟨") \x7b".toList ++ text, ⟨1, 4⟩, false⟩) := rfl
  have closing : (⟨") \x7b".toList ++ text, ⟨1, 4⟩, false⟩ : Lexer).nextToken =
      (⟨.rightParen, ")", ⟨1, 4⟩⟩, ⟨" \x7b".toList ++ text, ⟨1, 5⟩, false⟩) := rfl
  have brace : (⟨" \x7b".toList ++ text, ⟨1, 5⟩, false⟩ : Lexer).nextToken =
      (bodyToken, ⟨text, bodyOrigin, false⟩) := rfl
  rw [tokens_of_nextToken word (by decide), tokens_of_nextToken opening (by decide),
    tokens_of_nextToken closing (by decide), tokens_of_nextToken brace (by decide)]
  rfl

/-- The tokens of a function without parameters. -/
theorem tokens_function (a : String) :
    (ofString ("fn() \x7b" ++ a ++ "\x7d")).tokens =
      functionHead ++ ((ofString a).tokens.map (Token.shift bodyOrigin) ++
        [⟨.rightBrace, "\x7d", bodyOrigin.shift (ofString a).finish⟩]) := by
  have separates : Separates '}' [] :=
    ⟨rfl, Lexeme.breaks_cons [] (by decide), Lexeme.first_of_symbol rfl rfl (by simp)⟩
  have body : (⟨a.toList ++ ['}'], bodyOrigin, false⟩ : Lexer) =
      ((ofString a).shift bodyOrigin).extend ['}'] := rfl
  have whole : ofString ("fn() \x7b" ++ a ++ "\x7d") =
      ⟨"fn() \x7b".toList ++ (a.toList ++ ['}']), .start, false⟩ := by
    simp [ofString]
  have nothing (place : Location) : (⟨[], place, false⟩ : Lexer).tokens = [] := tokens_of_end rfl
  rw [whole, tokens_functionHead, body, tokens_extend _ separates,
    tokens_shift _ Location.counted_start, finish_shift _ Location.counted_start]
  exact congrArg (fun behind => functionHead ++ (_ ++ _ :: behind)) (nothing _)

end Lexer

/-! ### What is read -/

/-- The position at the beginning of the body of a function without parameters. -/
def State.inFunction (tokens : List Token) (finish : Location) : State where
  tokens := tokens
  finish := finish
  braceDepth := braceStep 1 (tokens.head?.getD (.endOfInput finish)).kind
  nesting := 1
  events := [.began functionToken]

/-- If the statements of the body are read up to its last token, then the function is read. -/
theorem Parser.run_function {levels : Nat} {tokens : List Token} {finish : Location}
    {ws : List Statement} {m : State}
    (run : statementsFrom (expressionWithin levels) 1 (.inFunction tokens finish) = (.ok ws, m))
    (last : m.tokens = [closing]) :
    (statement (expressionWithin (levels + 1))).run (.ofTokens (functionHead ++ tokens) finish) =
      (.ok (.expression functionToken (.function functionToken [] ⟨bodyToken, ws⟩)),
        { m with nesting := 0 }.note .completed) := by
  have ended : m.peek.kind = .endOfInput := by
    rw [State.peek, last]
    rfl
  let start : State := { (State.ofTokens (functionHead ++ tokens) finish).note (.began functionToken)
    with nesting := 1 }
  have body : (block (expressionWithin levels)).Reads (fun _ => True)
      start.advance.advance.advance ⟨bodyToken, ws⟩ m :=
    (reads_block _).2 ⟨ws, reads_any_iff.2 run, rfl⟩
  have function : (operand (expressionWithin levels)).Reads (fun _ => True) start
      (.function functionToken [] ⟨bodyToken, ws⟩) m := by
    refine (reads_operand _).2 ?_
    show (function (expressionWithin levels) functionToken).Reads _ start _ m
    refine (reads_function _).2 ⟨rfl, [], start.advance.advance, ?_, rfl, _, body, rfl⟩
    exact reads_any_iff.2 rfl
  have stops : (fold (expressionWithin levels) .lowest
      (.function functionToken [] ⟨bodyToken, ws⟩)).Reads (fun _ => True) m
      (.function functionToken [] ⟨bodyToken, ws⟩) m := by
    refine (reads_fold _).2 (.inl ⟨?_, rfl, rfl⟩)
    rw [ended]
    exact Nat.not_lt_zero _
  have expression : (expressionWithin (levels + 1) .lowest).Reads (fun _ => True)
      ((State.ofTokens (functionHead ++ tokens) finish).note (.began functionToken))
      (.function functionToken [] ⟨bodyToken, ws⟩) { m with nesting := 0 } :=
    reads_expressionWithin.2 ⟨m, (reads_operators _).2 ⟨_, m, function, stops⟩, rfl⟩
  refine reads_any_iff.1 ((reads_statement _).2 ⟨{ m with nesting := 0 }, ?_, rfl⟩)
  refine (reads_statementAt_expression _ ?_ ?_).2 ⟨_, _, expression, ?_, rfl⟩
  · exact fun same => absurd (show Kind.functionWord = .letWord from same) (by decide)
  · exact fun same => absurd (show Kind.functionWord = .returnWord from same) (by decide)
  · rw [if_neg]
    show ¬m.peek.kind = .semicolon
    rw [ended]
    decide

/-- If the statements of the body are read up to its last token, then the function is the whole
program. -/
theorem State.statements_function {levels : Nat} {tokens : List Token} {finish : Location}
    {ws : List Statement} {m : State}
    (run : Parser.statementsFrom (Parser.expressionWithin levels) 1 (.inFunction tokens finish) =
      (.ok ws, m)) (last : m.tokens = [closing]) :
    (State.ofTokens (functionHead ++ tokens) finish).statements (levels + 1) =
      ([.expression functionToken (.function functionToken [] ⟨bodyToken, ws⟩)],
        ({ m with nesting := 0 }.note .completed).advance) := by
  have step := (Parser.run_statement_expression rfl).trans (Parser.run_function run last)
  have ended : ({ m with nesting := 0 }.note .completed).advance.current.kind = .endOfInput := by
    rw [current, advance_tokens]
    show (m.tokens.tail.head?.getD _).kind = _
    rw [last]
    rfl
  have notEnded : (State.ofTokens (functionHead ++ tokens) finish).current.kind ≠ .endOfInput :=
    fun same => absurd (show Kind.functionWord = .endOfInput from same) (by decide)
  rw [statements_of_ok notEnded step, statements_of_end ended]

/-- The tokens of a body that may stand alone are read between the braces of a function as they are
by themselves, if there are not too many expressions open. -/
theorem Parsed.ofTokens_function (levels : Nat) {body : List Token} (h : Standalone body)
    (closes : closing.kind = .rightBrace) (origin finish finish' : Location)
    (shallow : ∀ fault ∈ (ofTokens (levels + 1)
      (functionHead ++ (body.map (Token.shift origin) ++ [closing])) finish').faults,
      ¬fault.IsTooDeep) :
    (ofTokens (levels + 1)
          (functionHead ++ (body.map (Token.shift origin) ++ [closing])) finish').program.statements =
        [.expression functionToken (.function functionToken [] ⟨bodyToken,
          statementViews (.moved origin)
            (ofTokens (levels + 1) body finish).program.statements⟩)] ∧
      (ofTokens (levels + 1)
          (functionHead ++ (body.map (Token.shift origin) ++ [closing])) finish').history =
        .began functionToken ::
          ((ofTokens (levels + 1) body finish).history.map (Event.view (.moved origin)) ++
            [.completed]) := by
  obtain ⟨ws, m, m', run, run', last, events⟩ := (h.shift origin).statementsFrom closes levels
    (u := .inFunction (body.map (Token.shift origin) ++ [closing]) finish') rfl rfl
    (origin.shift finish)
  have whole := State.statements_function run last
  -- with one more level and none of them open, the body is still read as before
  have shallow : ∀ fault ∈ m'.faults, ¬fault.IsTooDeep := by
    have same : m'.faults = m.faults := by rw [State.faults, State.history, ← events]; rfl
    intro fault member
    refine shallow fault ?_
    show fault ∈ (State.statements _ _).2.faults
    rw [whole, State.faults_advance, State.faults_note_completed]
    exact same ▸ member
  let alone := State.ofTokensAfter [.began functionToken] (body.map (Token.shift origin))
    (origin.shift finish)
  have run' : ({ alone with nesting := 1 } : State).statementsBy (Parser.expressionWithin levels) =
      (ws, m') := run'
  have near : Unnested { alone with nesting := 1 } alone := rfl
  have deeper := State.statementsBy_of_shallow (Nat.le_succ levels) near (run' ▸ shallow)
  rw [run', ← State.statements_eq_within (levels + 1) rfl] at deeper
  obtain ⟨trees, happened⟩ := State.statements_moved [.began functionToken] origin body finish
    (levels + 1)
  rw [deeper.1] at trees
  rw [deeper.2] at happened
  have trees : ws = _ := trees
  have happened : m'.events = _ := happened
  constructor
  · show (State.statements _ _).1 = _
    rw [whole, trees]
    rfl
  · show (State.statements _ _).2.events.reverse = _
    rw [whole]
    show (.completed :: m.events).reverse = _
    rw [events, happened, List.reverse_cons, List.reverse_append, ← List.map_reverse]
    rfl

/-- **A text is read as the body of a function as it is by itself.**  Let the braces of a text be
balanced and let it be empty or end with a semicolon.  If no fault of the function with this body
says that too many expressions are open, then the function is the only statement, the statements of
its body are those of the text, and its faults are those of the text, all moved to the place behind
the opening brace. -/
theorem Parsed.ofString_function {a : String} (balanced : Balanced (Lexer.ofString a).tokens)
    (last : ∀ token ∈ (Lexer.ofString a).tokens.getLast?, token.kind = .semicolon)
    (shallow : ∀ fault ∈ (ofString ("fn() \x7b" ++ a ++ "\x7d")).faults, ¬fault.IsTooDeep) :
    (ofString ("fn() \x7b" ++ a ++ "\x7d")).program.statements =
        [.expression functionToken (.function functionToken [] ⟨bodyToken,
          statementViews (.moved bodyOrigin) (ofString a).program.statements⟩)] ∧
      (ofString ("fn() \x7b" ++ a ++ "\x7d")).faults =
        (ofString a).faults.map (Fault.view (.moved bodyOrigin)) ∧
      ∀ fault : Fault,
        (fault.view (.moved bodyOrigin)).location = bodyOrigin.shift fault.location ∧
          (fault.view (.moved bodyOrigin)).message = fault.message := by
  have read := Lexer.tokens_function a
  have shallow : ∀ fault ∈ (ofTokens (127 + 1) (Lexer.ofString ("fn() \x7b" ++ a ++ "\x7d")).tokens
      (Lexer.ofString ("fn() \x7b" ++ a ++ "\x7d")).finish).faults, ¬fault.IsTooDeep := shallow
  rw [read] at shallow
  have alone : Standalone (Lexer.ofString a).tokens :=
    ⟨balanced, (Lexer.ofString a).kind_ne_of_mem_tokens, last⟩
  obtain ⟨statements, history⟩ := ofTokens_function 127 alone rfl bodyOrigin
    (Lexer.ofString a).finish _ shallow
  rw [← read] at statements history
  have history : (ofString ("fn() \x7b" ++ a ++ "\x7d")).history = .began functionToken ::
      ((ofString a).history.map (Event.view (.moved bodyOrigin)) ++ [.completed]) := history
  refine ⟨statements, ?_, fun fault =>
    ⟨fault.location_view_moved bodyOrigin, fault.message_view_moved bodyOrigin⟩⟩
  rw [Parsed.faults, history, List.filterMap_cons_none rfl, List.filterMap_append,
    filterMap_fault?_view]
  exact List.append_nil _

/-- An unfinished binding, an operand that is missing in a block, and a choice cut short. -/
def brokenBody : String := "let x; f(fn(a) \x7b b = ); \x7d\n if (1; "

/-- All faults are found in the body as they are found without the function. -/
theorem Parsed.ofString_function_broken :
    Balanced (Lexer.ofString brokenBody).tokens ∧
      (∀ token ∈ (Lexer.ofString brokenBody).tokens.getLast?, token.kind = .semicolon) ∧
      (ofString ("fn() \x7b" ++ brokenBody ++ "\x7d")).faults =
        [.unexpected .assign ⟨.semicolon, ";", ⟨1, 12⟩⟩,
          .noOperand ⟨.assign, "=", ⟨1, 26⟩⟩,
          .unexpected .rightParen ⟨.ifWord, "if", ⟨2, 2⟩⟩] ∧
      (ofString ("fn() \x7b" ++ brokenBody ++ "\x7d")).faults =
        (ofString brokenBody).faults.map (Fault.view (.moved bodyOrigin)) := by
  have balanced : Balanced (Lexer.ofString brokenBody).tokens :=
    balanced_iff.2 (by decide +kernel)
  have last : ∀ token ∈ (Lexer.ofString brokenBody).tokens.getLast?, token.kind = .semicolon := by
    decide +kernel
  have faults : (ofString ("fn() \x7b" ++ brokenBody ++ "\x7d")).faults =
      [.unexpected .assign ⟨.semicolon, ";", ⟨1, 12⟩⟩, .noOperand ⟨.assign, "=", ⟨1, 26⟩⟩,
        .unexpected .rightParen ⟨.ifWord, "if", ⟨2, 2⟩⟩] := by
    decide +kernel
  have shallow : ∀ fault ∈ (ofString ("fn() \x7b" ++ brokenBody ++ "\x7d")).faults,
      ¬fault.IsTooDeep := by
    rw [faults]
    simp [Fault.IsTooDeep]
  exact ⟨balanced, last, faults, (ofString_function balanced last shallow).2.1⟩

end MonkeyLang
