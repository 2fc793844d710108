import MonkeyLang.Proofs.Containment
import MonkeyLang.Proofs.Relocation

/-!
# A semicolon between two texts

If no brace is open at the end of a text, then a semicolon keeps what is written behind it apart:
the statements and faults of the two parts come one after the other, each as if the other part were
not there (`Parsed.ofString_semicolon`).  Both parts may be broken.

Two runs are compared that differ only in what stands behind the semicolon, and there are two
reasons why they do the same up to that point.  Outside of blocks no parser moves on from a
semicolon, and recovery stops at one (`Before`).  A block, in which semicolons are passed, has ended
before: since no brace is open at the semicolon, there is a brace which matches the one that opens
the block, and the parser gets to it without having seen what stands behind (`Shared`).

From the semicolon on, the one run has nothing left to read and the other one reads the second text,
which is at another place than when it stands alone (`State.statements_alongside`).
-/

namespace MonkeyLang

/-! ### Counting open braces -/

/-- How many braces are open behind the tokens, if so many are open before them and one that closes
no brace does not count. -/
def openAfter (depth : Nat) (tokens : List Token) : Nat :=
  tokens.foldl (fun depth token => braceStep depth token.kind) depth

@[simp] theorem openAfter_nil (depth : Nat) : openAfter depth [] = depth := rfl

@[simp] theorem openAfter_cons (depth : Nat) (token : Token) (tokens : List Token) :
    openAfter depth (token :: tokens) = openAfter (braceStep depth token.kind) tokens := rfl

theorem openAfter_append (depth : Nat) (first second : List Token) :
    openAfter depth (first ++ second) = openAfter (openAfter depth first) second :=
  List.foldl_append

/-- Where the number of open braces falls, there is the brace which matches the one that was opened
last but `opened`. -/
theorem exists_closing (base opened : Nat) {tokens : List Token}
    (falls : openAfter (base + opened + 1) tokens ≤ base) :
    ∃ content closing more, tokens = content ++ closing :: more ∧ closing.kind = .rightBrace ∧
      depthAfter? opened content = some 0 ∧
      openAfter base more = openAfter (base + opened + 1) tokens := by
  induction tokens generalizing opened with
  | nil =>
    rw [openAfter_nil] at falls
    omega
  | cons token tokens ih =>
    by_cases opens : token.kind = .leftBrace
    · have deeper : openAfter (base + opened + 1) (token :: tokens) =
          openAfter (base + (opened + 1) + 1) tokens := by
        rw [openAfter_cons, opens]
        rfl
      rw [deeper] at falls ⊢
      obtain ⟨content, closing, more, rfl, closes, balanced, same⟩ := ih _ falls
      exact ⟨token :: content, closing, more, rfl, closes,
        by rwa [depthAfter?_leftBrace opens], same⟩
    by_cases closes : token.kind = .rightBrace
    · have shallower : openAfter (base + opened + 1) (token :: tokens) =
          openAfter (base + opened) tokens := by
        rw [openAfter_cons, closes]
        rfl
      rw [shallower] at falls ⊢
      cases opened with
      | zero => exact ⟨[], token, tokens, rfl, closes, rfl, rfl⟩
      | succ opened =>
        obtain ⟨content, closing, more, rfl, closes', balanced, same⟩ := ih _ falls
        exact ⟨token :: content, closing, more, rfl, closes',
          by rwa [depthAfter?_rightBrace closes], same⟩
    · have level : openAfter (base + opened + 1) (token :: tokens) =
          openAfter (base + opened + 1) tokens := by
        rw [openAfter_cons, braceStep_plain ⟨opens, closes⟩]
      rw [level] at falls ⊢
      obtain ⟨content, closing, more, rfl, closes', balanced, same⟩ := ih _ falls
      exact ⟨token :: content, closing, more, rfl, closes',
        by rwa [depthAfter?_plain opens closes], same⟩

/-! ### Two runs with different rests -/

variable {later later' s t : State}

/-- Both runs have seen the same so far.  What stands behind the one is at `later`, and what stands
behind the other one at `later'`. -/
structure InStep (later later' s t : State) : Prop where
  finish : s.finish = later.finish ∧ t.finish = later'.finish
  braceDepth : s.braceDepth = t.braceDepth
  nesting : s.nesting = t.nesting
  events : s.events = t.events

theorem InStep.advance (h : InStep later later' s t) (peek : s.peek = t.peek) :
    InStep later later' s.advance t.advance :=
  ⟨h.finish, by rw [State.advance_braceDepth, State.advance_braceDepth, h.braceDepth, peek],
    h.nesting, h.events⟩

theorem InStep.note (h : InStep later later' s t) (event : Event) :
    InStep later later' (s.note event) (t.note event) :=
  { h with events := congrArg (event :: ·) h.events }

/-- At least the current token and the one behind it are the same in both runs. -/
structure Shared (later later' s t : State) : Prop extends InStep later later' s t where
  tokens : ∃ ahead : List Token, 2 ≤ ahead.length ∧ s.tokens = ahead ++ later.tokens ∧
    t.tokens = ahead ++ later'.tokens

namespace Shared

theorem current (h : Shared later later' s t) : s.current = t.current := by
  obtain ⟨_ | ⟨first, ahead⟩, long, tokens, tokens'⟩ := h.tokens
  · exact absurd long (by decide)
  · rw [State.current, State.current, tokens, tokens']
    rfl

theorem peek (h : Shared later later' s t) : s.peek = t.peek := by
  obtain ⟨_ | ⟨first, _ | ⟨second, ahead⟩⟩, long, tokens, tokens'⟩ := h.tokens
  · exact absurd long (by decide)
  · exact absurd long (by simp)
  · rw [State.peek, State.peek, tokens, tokens']
    rfl

/-- Both runs may move on, unless then only one token is left before they part. -/
theorem advance (h : Shared later later' s t) :
    Shared later later' s.advance t.advance ∨
      s.advance.tokens.length ≤ later.tokens.length + 1 ∧
        t.advance.tokens.length ≤ later'.tokens.length + 1 := by
  obtain ⟨ahead, long, tokens, tokens'⟩ := h.tokens
  by_cases more : 3 ≤ ahead.length
  · have nonempty : ahead ≠ [] := List.length_pos_iff.1 (by omega)
    refine .inl ⟨h.toInStep.advance h.peek, ahead.tail, ?_, ?_, ?_⟩
    · rw [List.length_tail]
      omega
    · rw [State.advance_tokens, tokens, List.tail_append_of_ne_nil nonempty]
    · rw [State.advance_tokens, tokens', List.tail_append_of_ne_nil nonempty]
  · refine .inr ⟨?_, ?_⟩
    · rw [State.length_advance, tokens, List.length_append]
      omega
    · rw [State.length_advance, tokens', List.length_append]
      omega

theorem note (h : Shared later later' s t) (event : Event) :
    Shared later later' (s.note event) (t.note event) :=
  ⟨h.toInStep.note event, h.tokens⟩

end Shared

namespace Coupling

/-- Two runs until they come to where they part. -/
def shared (later later' : State) : Coupling where
  left := .full
  right := .full
  Near := Shared later later'
  Ready _ := True
  Lost s t := s.tokens.length ≤ later.tokens.length + 1 ∧ t.tokens.length ≤ later'.tokens.length + 1
  Doomed _ := False
  similar near := near.current ▸ similar_full _
  similar_peek near _ := near.peek ▸ similar_full _
  advance near _ := near.advance.imp_left fun near => ⟨near, trivial⟩
  began near := by
    rw [← near.current]
    exact near.note _
  completed near := near.note _
  ready _ _ := trivial
  lost h moved moved' :=
    ⟨Nat.le_trans moved.tokens_suffix.length_le h.1,
      Nat.le_trans moved'.tokens_suffix.length_le h.2⟩

theorem roams_shared : (shared later later').Roams where
  similar_peek near := near.peek ▸ similar_full _
  advance near := near.advance
  braceDepth near := near.braceDepth
  failed {s t f g} near same := by
    obtain rfl : f = g := Fault.eq_of_view_full same
    exact near.note _
  doomed h := h.elim

theorem counts_shared : (shared later later').Counts where
  nesting near := near.nesting
  near near _ := { near with nesting := rfl }
  ready _ _ := trivial
  lost h _ _ := h

end Coupling

/-! ### Up to the semicolon -/

variable {semicolon : Token}

/-- Both runs are at the same token before a semicolon or at the semicolon itself, where no brace
will be open any more. -/
structure Before (semicolon : Token) (later later' s t : State) : Prop
    extends InStep later later' s t where
  kind : semicolon.kind = .semicolon
  tokens : ∃ ahead outer, s.tokens = ahead ++ semicolon :: later.tokens ∧
    t.tokens = ahead ++ semicolon :: later'.tokens ∧
    (∀ token ∈ ahead, token.kind ≠ .endOfInput) ∧
    s.braceDepth = braceStep outer s.current.kind ∧ openAfter outer ahead = 0

namespace Before

theorem current (h : Before semicolon later later' s t) : s.current = t.current := by
  obtain ⟨ahead, -, tokens, tokens', -⟩ := h.tokens
  rw [State.current, State.current, tokens, tokens']
  cases ahead <;> rfl

theorem current_kind_ne (h : Before semicolon later later' s t) :
    s.current.kind ≠ .endOfInput := by
  obtain ⟨ahead, -, tokens, -, notEnded, -⟩ := h.tokens
  rw [State.current, tokens]
  cases ahead with
  | nil => exact fun ended => absurd (h.kind.symm.trans ended) (by decide)
  | cons first ahead => exact notEnded first List.mem_cons_self

/-- Both runs are at the semicolon, with no brace open, or they may move on. -/
theorem advance (h : Before semicolon later later' s t) :
    (s.current = semicolon ∧ s.tokens = semicolon :: later.tokens ∧
        t.tokens = semicolon :: later'.tokens ∧ s.braceDepth = 0) ∨
      s.peek = t.peek ∧ Before semicolon later later' s.advance t.advance := by
  obtain ⟨ahead, outer, tokens, tokens', notEnded, counted, closed⟩ := h.tokens
  cases ahead with
  | nil =>
    have current : s.current = semicolon := by rw [State.current, tokens]; rfl
    refine .inl ⟨current, tokens, tokens', ?_⟩
    rw [counted, current, h.kind]
    exact closed
  | cons first ahead =>
    have current : s.current = first := by rw [State.current, tokens]; rfl
    have peek : s.peek = t.peek := by
      rw [State.peek, State.peek, tokens, tokens']
      cases ahead <;> rfl
    rw [openAfter_cons, ← current, ← counted] at closed
    exact .inr ⟨peek, h.toInStep.advance peek, h.kind, ahead, s.braceDepth,
      congrArg List.tail tokens, congrArg List.tail tokens',
      fun token member => notEnded token (List.mem_cons_of_mem _ member), rfl, closed⟩

/-- At a token that is no semicolon both runs may move on. -/
theorem advance_of_ne (h : Before semicolon later later' s t) (ne : s.current.kind ≠ .semicolon) :
    s.peek = t.peek ∧ Before semicolon later later' s.advance t.advance := by
  obtain ⟨current, -⟩ | further := h.advance
  · exact absurd (current ▸ h.kind) ne
  · exact further

theorem note (h : Before semicolon later later' s t) (event : Event) :
    Before semicolon later later' (s.note event) (t.note event) :=
  ⟨h.toInStep.note event, h.kind, h.tokens⟩

/-- Outside of all braces the semicolon is a boundary. -/
theorem atBoundary (h : Before semicolon later later' s t) : t.atBoundary 0 = s.atBoundary 0 := by
  unfold State.atBoundary
  rw [← h.current, ← h.braceDepth]
  obtain ⟨current, -, -, depth⟩ | ⟨peek, -⟩ := h.advance
  · simp [current, h.kind, depth]
  · rw [peek]

/-- Recovery stops at the semicolon at the latest. -/
theorem synchronize (h : Before semicolon later later' s t) :
    Before semicolon later later' (s.synchronize 0) (t.synchronize 0) := by
  generalize floor : 0 = depth
  fun_induction State.synchronize depth s generalizing t with
  | case1 s boundary =>
    subst floor
    rwa [State.synchronize_of_boundary (h.atBoundary.trans boundary)]
  | case2 s notBoundary ih =>
    subst floor
    have notBoundary' : ¬t.atBoundary 0 := by rwa [h.atBoundary]
    rw [State.synchronize_of_not_boundary notBoundary']
    obtain ⟨current, -, -, depth⟩ | ⟨-, further⟩ := h.advance
    · exact absurd (by simp [State.atBoundary, current, h.kind, depth]) notBoundary
    · exact ih further

/-- A brace that is opened before the semicolon is closed before it. -/
theorem exists_block (h : Before semicolon later later' s t) (opens : s.current.kind = .leftBrace) :
    ∃ opening content closing more,
      s.tokens = opening :: (content ++ closing :: (more ++ semicolon :: later.tokens)) ∧
      t.tokens = opening :: (content ++ closing :: (more ++ semicolon :: later'.tokens)) ∧
      (∀ token ∈ content ++ closing :: more, token.kind ≠ .endOfInput) ∧
      closing.kind = .rightBrace ∧ Balanced content ∧
      ∃ outer, s.braceDepth = outer + 1 ∧ openAfter outer more = 0 := by
  obtain ⟨ahead, outer, tokens, tokens', notEnded, counted, closed⟩ := h.tokens
  cases ahead with
  | nil =>
    have current : s.current = semicolon := by rw [State.current, tokens]; rfl
    rw [current, h.kind] at opens
    exact absurd opens (by decide)
  | cons opening ahead =>
    have current : s.current = opening := by rw [State.current, tokens]; rfl
    rw [opens] at counted
    rw [openAfter_cons, ← current, opens] at closed
    have closed : openAfter (outer + 0 + 1) ahead = 0 := closed
    have falls : openAfter (outer + 0 + 1) ahead ≤ outer := by
      rw [closed]
      exact Nat.zero_le outer
    obtain ⟨content, closing, more, rfl, closes, balanced, same⟩ := exists_closing outer 0 falls
    refine ⟨opening, content, closing, more, by simp [tokens], by simp [tokens'],
      fun token member => notEnded token (List.mem_cons_of_mem _ member), closes,
      balanced_iff.2 balanced, outer, counted, same.trans closed⟩

end Before

namespace Coupling

/-- Two runs until they come to the semicolon. -/
def before (semicolon : Token) (later later' : State) : Coupling where
  left := .full
  right := .full
  Near := Before semicolon later later'
  Ready _ := True
  Lost _ _ := False
  Doomed _ := False
  similar near := near.current ▸ similar_full _
  similar_peek near solid := (near.advance_of_ne solid.1).1 ▸ similar_full _
  advance near solid := .inl ⟨(near.advance_of_ne solid.1).2, trivial⟩
  began near := by
    rw [← near.current]
    exact near.note _
  completed near := near.note _
  ready _ _ := trivial
  lost h _ _ := h

theorem counts_before : (before semicolon later later').Counts where
  nesting near := near.nesting
  near near _ := { near with nesting := rfl }
  ready _ _ := trivial
  lost h _ _ := h

/-- A block that is opened before the semicolon ends before it, and what stands behind the semicolon
plays no part in it. -/
theorem agree_block_before (levels : Nat) :
    (before semicolon later later').AgreeOnBlocks
      (Parser.block (Parser.expressionWithin levels))
      (Parser.block (Parser.expressionWithin levels)) := by
  intro s t near opens
  obtain ⟨opening, content, closing, more, tokens, tokens', notEnded, closes, balanced, outer,
    counted, closed⟩ := near.exists_block opens
  obtain ⟨b, m, read, left, depth, -⟩ :=
    Parser.block_contained (Parser.confined_expressionWithin levels) closes balanced
    (fun token member => notEnded token (List.mem_append_left _ member))
    (counted ▸ Nat.succ_pos outer) tokens
  -- both runs do the same until they come to what stands behind the semicolon
  have shared : Shared later later' s t :=
    ⟨near.toInStep, opening :: (content ++ closing :: (more ++ [semicolon])), by simp; omega,
      by simp [tokens], by simp [tokens']⟩
  have roams : (Coupling.shared later later').Roams := roams_shared
  have agree := counts_shared.agree_expressionWithin (fun _ h => roams.agree_block (h .lowest))
    levels .lowest
  have meets := roams.agree_block agree shared opens
  rw [read.1] at meets ⊢
  generalize (Parser.block (Parser.expressionWithin levels)).run t = result at meets ⊢
  cases meets with
  | lost lost =>
    -- the left run has not come so far
    have short : m.tokens.length ≤ later.tokens.length + 1 := lost.1
    simp only [left, List.length_cons, List.length_append] at short
    omega
  | @ok _ b' _ m' near' good =>
    refine .ok ?_ good
    obtain ⟨ahead, -, left', right⟩ := near'.tokens
    have same : closing :: (more ++ [semicolon]) ++ later.tokens = ahead ++ later.tokens := by
      rw [← left', left]
      simp
    obtain rfl := List.append_cancel_right same
    have ends : m.current = closing := by rw [State.current, left]; rfl
    refine ⟨near'.toInStep, near.kind, closing :: more, outer + 1, by simp [left], by simp [right],
      fun token member => notEnded token (List.mem_append_right _ member), ?_, ?_⟩
    · rw [ends, closes]
      exact Nat.succ.inj (depth.trans counted)
    · rw [openAfter_cons, closes]
      exact closed

theorem agree_expression_before (limit : Nat) (bound : Precedence) :
    (before semicolon later later').Agree (Parser.expression limit bound)
      (Parser.expression limit bound) :=
  counts_before.agree_expression (fun levels _ => agree_block_before levels) limit bound

end Coupling

/-! ### Going on at the semicolon -/

namespace State

/-- The first position in a sequence of tokens, where some events have been written down before. -/
def ofTokensAfter (events : List Event) (tokens : List Token) (finish : Location) : State :=
  { ofTokens tokens finish with events := events }

/-- Behind the semicolon a text begins. -/
theorem advance_eq_ofTokensAfter {tokens : List Token} (ahead : s.tokens = semicolon :: tokens)
    (depth : s.braceDepth = 0) (nesting : s.nesting = 0) :
    s.advance = ofTokensAfter s.events tokens s.finish := by
  obtain ⟨_, finish, _, _, events⟩ := s
  obtain rfl := ahead
  obtain rfl := depth
  obtain rfl := nesting
  rfl

/-- The statements ahead are `first` and then those ahead of a later position. -/
def Continues (limit : Nat) (s : State) (first : List Statement) (later : State) : Prop :=
  s.statements limit = (first ++ (later.statements limit).1, (later.statements limit).2)

variable {limit : Nat} {m : State} {first : List Statement}

theorem continues_of_ok {w : Statement} (notEnded : s.current.kind ≠ .endOfInput)
    (step : (Parser.statement (Parser.expression limit)).run s = (.ok w, m))
    (h : m.advance.Continues limit first later) : s.Continues limit (w :: first) later := by
  have h : m.advance.statements limit = _ := h
  rw [Continues, statements_of_ok notEnded step, h]
  rfl

theorem continues_of_error {f : Fault} (notEnded : s.current.kind ≠ .endOfInput)
    (step : (Parser.statement (Parser.expression limit)).run s = (.error f, m))
    (h : ((m.note (.failed f)).synchronize 0).advance.Continues limit first later) :
    s.Continues limit first later := by
  rw [Continues, statements_of_error notEnded step]
  exact h

end State

/-- Both runs come to the semicolon with the same statements and events, and go on from there as if
a text began. -/
theorem Before.continues {rest rest' : List Token} {finish finish' : Location} (limit : Nat)
    (h : Before semicolon (.ofTokens rest finish) (.ofTokens rest' finish') s t)
    (nesting : s.nesting = 0) :
    ∃ first events, s.Continues limit first (.ofTokensAfter events rest finish) ∧
      t.Continues limit first (.ofTokensAfter events rest' finish') := by
  induction length : s.tokens.length using Nat.strongRecOn generalizing s t with
  | ind n ih =>
    have notEnded := h.current_kind_ne
    have notEnded' : t.current.kind ≠ .endOfInput := h.current ▸ notEnded
    have positive := List.length_pos_iff.2 (s.tokens_ne_nil_of_current notEnded)
    -- behind a statement or a boundary both runs are at the semicolon or still before it
    have further {m m' : State} (near : Before semicolon (.ofTokens rest finish)
        (.ofTokens rest' finish') m m') (moved : s.Reaches m) :
        ∃ first events, m.advance.Continues limit first (.ofTokensAfter events rest finish) ∧
          m'.advance.Continues limit first (.ofTokensAfter events rest' finish') := by
      have counted : m.nesting = 0 := moved.nesting_eq.trans nesting
      obtain ⟨-, tokens, tokens', depth⟩ | ⟨-, near⟩ := near.advance
      · have fresh := State.advance_eq_ofTokensAfter tokens depth counted
        have fresh' := State.advance_eq_ofTokensAfter tokens' (near.braceDepth ▸ depth)
          (near.nesting ▸ counted)
        rw [near.finish.1] at fresh
        rw [near.finish.2, ← near.events] at fresh'
        rw [fresh, fresh']
        exact ⟨[], m.events, rfl, rfl⟩
      · have shorter := moved.tokens_suffix.length_le
        refine ih _ ?_ near counted rfl
        rw [State.length_advance]
        omega
    have meets :=
      Coupling.meets_statement (Coupling.agree_expression_before limit .lowest) h trivial
    have moved := (Parser.statement (Parser.expression limit)).reaches s
    generalize step : (Parser.statement (Parser.expression limit)).run s = result at meets moved
    generalize step' : (Parser.statement (Parser.expression limit)).run t = result' at meets
    cases meets with
    | @ok w w' m m' near same =>
      obtain rfl : w = w' := by
        rw [← w.view_full, ← w'.view_full]
        exact same
      obtain ⟨first, events, left, right⟩ := further near moved
      exact ⟨w :: first, events, State.continues_of_ok notEnded step left,
        State.continues_of_ok notEnded' step' right⟩
    | @error f g m m' near same =>
      obtain rfl : f = g := Fault.eq_of_view_full same
      have resumed : s.Reaches ((m.note (.failed f)).synchronize 0) :=
        (moved.note _).trans (State.synchronize_reaches _ 0)
      obtain ⟨first, events, left, right⟩ := further (near.note (.failed f)).synchronize resumed
      exact ⟨first, events, State.continues_of_error notEnded step left,
        State.continues_of_error notEnded' step' right⟩
    | lost h => exact h.elim
    | doomed h => exact h.elim

/-! ### The two parts of a text -/

/-- What is read behind some events, from tokens that are moved, is what is read from the tokens as
they are, moved, and it happens after these events. -/
theorem State.statements_moved (events : List Event) (origin : Location) (tokens : List Token)
    (finish : Location) (limit : Nat) :
    ((ofTokensAfter events (tokens.map (Token.shift origin)) (origin.shift finish)).statements
          limit).1 =
        statementViews (.moved origin) ((ofTokens tokens finish).statements limit).1 ∧
      ((ofTokensAfter events (tokens.map (Token.shift origin)) (origin.shift finish)).statements
          limit).2.events =
        ((ofTokens tokens finish).statements limit).2.events.map (Event.view (.moved origin)) ++
          events := by
  have alongside : Alongside (.moved origin) .full events (.ofTokens tokens finish)
      (.ofTokensAfter events (tokens.map (Token.shift origin)) (origin.shift finish)) := by
    have similar : List.Forall₂ (Similar (.moved origin) .full) tokens
        (tokens.map (Token.shift origin)) :=
      List.forall₂_map_right_iff.2 (List.forall₂_same.2 fun token _ => similar_shift origin token)
    refine ⟨similar, similar_shift origin (.endOfInput finish), ?_, rfl, ?_⟩
    · cases tokens <;> rfl
    · show events.map (Event.view .full) = [] ++ events
      rw [List.map_congr_left fun event _ => event.view_full, List.map_id', List.nil_append]
  obtain ⟨trees, happened⟩ := State.statements_alongside alongside limit
  rw [statementViews_full] at trees
  rw [List.map_congr_left fun event _ => event.view_full, List.map_id'] at happened
  exact ⟨trees, happened⟩

namespace Parsed

/-- What stands behind a semicolon outside of all braces is read as if it stood alone. -/
theorem ofTokens_semicolon (limit : Nat) {first : List Token} (semicolon : Token)
    (second : List Token) (origin finish finish' : Location)
    (kind : semicolon.kind = .semicolon) (notEnded : ∀ token ∈ first, token.kind ≠ .endOfInput)
    (closed : openAfter 0 first = 0) :
    (ofTokens limit (first ++ semicolon :: second.map (Token.shift origin))
          (origin.shift finish)).program.statements =
        (ofTokens limit (first ++ [semicolon]) finish').program.statements ++
          statementViews (.moved origin) (ofTokens limit second finish).program.statements ∧
      (ofTokens limit (first ++ semicolon :: second.map (Token.shift origin))
          (origin.shift finish)).history =
        (ofTokens limit (first ++ [semicolon]) finish').history ++
          (ofTokens limit second finish).history.map (Event.view (.moved origin)) := by
  have start : Before semicolon (.ofTokens (second.map (Token.shift origin)) (origin.shift finish))
      (.ofTokens [] finish')
      (.ofTokens (first ++ semicolon :: second.map (Token.shift origin)) (origin.shift finish))
      (.ofTokens (first ++ [semicolon]) finish') := by
    refine ⟨⟨⟨rfl, rfl⟩, ?_, rfl, rfl⟩, kind, first, 0, rfl, rfl, notEnded, rfl, closed⟩
    cases first <;> rfl
  obtain ⟨statements, events, whole, part⟩ := start.continues limit rfl
  -- nothing is left behind the semicolon of the first part
  have nothing : (State.ofTokensAfter events [] finish').statements limit =
      ([], .ofTokensAfter events [] finish') := State.statements_of_end rfl
  obtain ⟨trees, happened⟩ := State.statements_moved events origin second finish limit
  have whole : State.statements limit _ = _ := whole
  have part : State.statements limit _ = _ := part
  rw [nothing] at part
  constructor
  · show (State.statements limit _).1 = (State.statements limit _).1 ++ _
    rw [whole, part, trees, List.append_nil]
    rfl
  · show (State.statements limit _).2.events.reverse =
      (State.statements limit _).2.events.reverse ++ _
    rw [whole, part, happened, List.reverse_append, ← List.map_reverse]
    rfl

end Parsed

/-- The tokens of two texts with a semicolon in between. -/
theorem Lexer.tokens_ofString_semicolon (a b : String) :
    (Lexer.ofString (a ++ ";" ++ b)).tokens =
        (Lexer.ofString a).tokens ++ ⟨.semicolon, ";", (Lexer.ofString a).finish⟩ ::
          (Lexer.ofString b).tokens.map
            (Token.shift (Location.start.after (a ++ ";").toList)) ∧
      (Lexer.ofString (a ++ ";" ++ b)).finish =
        (Location.start.after (a ++ ";").toList).shift (Lexer.ofString b).finish := by
  have origin : (Lexer.ofString a).finish.next ';' = Location.start.after (a ++ ";").toList := by
    rw [String.toList_append, Location.after_append]
    rfl
  have joined : Lexer.ofString (a ++ ";" ++ b) =
      (Lexer.ofString a).extend (';' :: b.toList) := by
    simp [Lexer.ofString, Lexer.extend]
  have behind : (⟨b.toList, (Lexer.ofString a).finish.next ';', false⟩ : Lexer) =
      (Lexer.ofString b).shift (Location.start.after (a ++ ";").toList) := by
    rw [origin]
    rfl
  constructor
  · rw [joined, Lexer.tokens_extend _ (Lexer.separates_semicolon _),
      ← Lexer.tokens_shift _ Location.counted_start, ← behind]
    rfl
  · rw [← Lexer.finish_shift _ Location.counted_start, ← behind, joined]
    show Location.start.after (a.toList ++ ';' :: b.toList) = _
    rw [Location.after_append]
    rfl

/-- **A semicolon keeps two texts apart.**  If no brace is open at the end of the first text, then
the statements and faults of both texts with a semicolon in between are those of the first one with
the semicolon and then those of the second one, moved to where that text comes to lie. -/
theorem Parsed.ofString_semicolon {a b : String}
    (closed : openAfter 0 (Lexer.ofString a).tokens = 0) :
    let origin := Location.start.after (a ++ ";").toList
    (ofString (a ++ ";" ++ b)).program.statements =
        (ofString (a ++ ";")).program.statements ++
          statementViews (.moved origin) (ofString b).program.statements ∧
      (ofString (a ++ ";" ++ b)).faults =
        (ofString (a ++ ";")).faults ++ (ofString b).faults.map (Fault.view (.moved origin)) ∧
      ∀ fault : Fault, (fault.view (.moved origin)).location = origin.shift fault.location ∧
        (fault.view (.moved origin)).message = fault.message := by
  intro origin
  obtain ⟨tokens, finish⟩ := Lexer.tokens_ofString_semicolon a b
  obtain ⟨tokens', finish'⟩ := Lexer.tokens_ofString_semicolon a ""
  have nothing : (Lexer.ofString "").tokens = [] := Lexer.tokens_of_end rfl
  rw [String.append_empty, nothing, List.map_nil] at tokens'
  obtain ⟨statements, history⟩ := ofTokens_semicolon maxNesting
    ⟨.semicolon, ";", (Lexer.ofString a).finish⟩ (Lexer.ofString b).tokens origin
    (Lexer.ofString b).finish (Lexer.ofString (a ++ ";")).finish rfl
    (Lexer.ofString a).kind_ne_of_mem_tokens closed
  rw [← tokens, ← tokens', ← finish] at statements history
  refine ⟨statements, ?_, fun fault =>
    ⟨fault.location_view_moved origin, fault.message_view_moved origin⟩⟩
  have whole : (ofString (a ++ ";" ++ b)).history = (ofString (a ++ ";")).history ++
      (ofString b).history.map (Event.view (.moved origin)) := history
  have faults : Event.fault? ∘ Event.view (.moved origin) =
      fun event => event.fault?.map (Fault.view (.moved origin)) :=
    funext (Event.fault?_view _)
  rw [Parsed.faults, whole, List.filterMap_append, List.filterMap_map, faults, Parsed.faults,
    Parsed.faults, List.map_filterMap]

/-- Both texts are broken: the first has a stray brace, open parentheses and a binding cut short. -/
theorem Parsed.ofString_semicolon_broken :
    openAfter 0 (Lexer.ofString "\x7d f(fn() \x7b a; \x7d, (1; let").tokens = 0 ∧
      (Parsed.ofString ("\x7d f(fn() \x7b a; \x7d, (1; let" ++ ";" ++ "b; )\nc")).faults =
        (Parsed.ofString ("\x7d f(fn() \x7b a; \x7d, (1; let" ++ ";")).faults ++
          (Parsed.ofString "b; )\nc").faults.map (Fault.view (.moved ⟨1, 26⟩)) := by
  have closed : openAfter 0 (Lexer.ofString "\x7d f(fn() \x7b a; \x7d, (1; let").tokens = 0 := by
    decide +kernel
  exact ⟨closed, (Parsed.ofString_semicolon closed).2.1⟩

end MonkeyLang
