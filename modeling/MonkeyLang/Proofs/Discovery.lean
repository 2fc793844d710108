import MonkeyLang.Proofs.Boundary
import MonkeyLang.Proofs.Diagnosis

/-!
# Faults are found in the order of the source

The faults of a text are listed in the order of their places.  Two of them share a place only if the
token there is a closing brace or the end of input, which ends a statement and the block or text
around it as well (`Parsed.ordered_ofString`).

The invariant is a watermark.  At a `Tidy` position the faults on record stand in order, and each
of them is behind the reading head, or under it and at a token that closes.  A parser that gives up
has `Halted` at the token of its fault or right before it, and what is skipped then leads past that
token, unless it closes.

One case needs more than that.  A block ends without a further step if a broken statement has run
into its closing brace, and then the fault must not be one that was found behind this brace.  So the
depth of braces is accounted for, too: a parser that has recognized the token under the reading head
is `Poised` at the depth at which its statement was begun, and only there it looks ahead for a
token that has to follow.
-/

namespace MonkeyLang

/-! ### The order of faults -/

/-- The kinds of token that end a statement together with the block or text around it. -/
def Kind.Closes (kind : Kind) : Prop := kind = .rightBrace ∨ kind = .endOfInput

/-- The kinds of token that are no brace and end no statement. -/
def Kind.Inner (kind : Kind) : Prop := kind.Plain ∧ kind ≠ .semicolon

instance (kind : Kind) : Decidable kind.Inner :=
  inferInstanceAs (Decidable ((kind ≠ .leftBrace ∧ kind ≠ .rightBrace) ∧ kind ≠ .semicolon))

theorem Kind.inner_of_binds {bound : Precedence} {kind : Kind} (h : bound < .ofKind kind) :
    kind.Inner := by
  refine ⟨Parser.plain_of_binds h, ?_⟩
  rintro rfl
  exact Nat.not_lt_zero _ h

/-- The second fault is found further on in the text, or at the same token, if that closes. -/
def Fault.Precedes (first second : Fault) : Prop :=
  first.location < second.location ∨ first.token = second.token ∧ first.token.kind.Closes

namespace State

variable {s t : State} {token : Token} {fault : Fault}

/-- The tokens ahead stand in order, and only the last one is the end of input. -/
structure Ordered (s : State) : Prop where
  sorted : s.ahead.Pairwise fun first second => first.location < second.location
  real : ∀ token ∈ s.tokens, token.kind ≠ .endOfInput

theorem Ordered.reaches (h : s.Ordered) (moved : s.Reaches t) : t.Ordered where
  sorted := by
    obtain ⟨gone, split⟩ := moved.tokens_suffix
    have sorted := h.sorted
    rw [ahead, ← split, List.append_assoc] at sorted
    rw [ahead, moved.finish_eq]
    exact (List.pairwise_append.1 sorted).2.1
  real token member := h.real token (moved.tokens_suffix.subset member)

/-- The next token stands behind the current one, unless both are the end of input. -/
theorem Ordered.lt_or_ended (h : s.Ordered) :
    s.current.location < s.peek.location ∨
      s.current = s.peek ∧ s.peek.kind = .endOfInput := by
  obtain ⟨sorted, -⟩ := h
  rw [ahead] at sorted
  rw [current, peek]
  generalize s.tokens = tokens at sorted
  rcases tokens with _ | ⟨token, _ | ⟨next, tokens⟩⟩
  · exact .inr ⟨rfl, rfl⟩
  · exact .inl ((List.pairwise_cons.1 sorted).1 _ (by simp))
  · exact .inl ((List.pairwise_cons.1 sorted).1 next (by simp))

/-- At the end of input nothing is ahead. -/
theorem Ordered.tokens_eq_nil (h : s.Ordered) (ended : s.current.kind = .endOfInput) :
    s.tokens = [] := by
  cases tokens : s.tokens with
  | nil => rfl
  | cons token rest =>
    have first : s.current = token := by rw [current, tokens]; rfl
    exact absurd (first ▸ ended) (h.real token (tokens ▸ List.mem_cons_self))

theorem Ordered.peek_ended (h : s.Ordered) (ended : s.current.kind = .endOfInput) :
    s.peek.kind = .endOfInput := by
  rw [peek, h.tokens_eq_nil ended]
  rfl

/-- The token is behind the reading head, or it is under it and closes. -/
def Past (s : State) (token : Token) : Prop :=
  token.location < s.current.location ∨ token = s.current ∧ token.kind.Closes

/-- A step leads past the current token. -/
theorem Ordered.past_current (h : s.Ordered) : s.advance.Past s.current := by
  obtain lt | ⟨same, ended⟩ := h.lt_or_ended
  · exact .inl lt
  · exact .inr ⟨same, .inr (same ▸ ended)⟩

theorem Past.advance (h : s.Past token) (ordered : s.Ordered) : s.advance.Past token := by
  obtain lt | ⟨rfl, -⟩ := h
  · obtain further | ⟨same, -⟩ := ordered.lt_or_ended
    · exact .inl (Location.lt_trans lt further)
    · rw [same] at lt
      exact .inl lt
  · exact ordered.past_current

/-- What is past stays past. -/
theorem Past.reaches (h : s.Past token) (ordered : s.Ordered) (moved : s.Reaches t) :
    t.Past token := by
  induction moved with
  | refl => exact h
  | advance moved ih => exact ih.advance (ordered.reaches moved)
  | note _ _ ih => exact ih

/-- A fault at the current token comes behind all faults that are past. -/
theorem Past.precedes {first : Fault} (h : s.Past first.token) (here : fault.token = s.current) :
    first.Precedes fault := by
  obtain lt | ⟨same, closes⟩ := h
  · exact .inl (by rwa [Fault.location, Fault.location, here])
  · exact .inr ⟨same.trans here.symm, closes⟩

/-! ### Positions where all is in order -/

/-- The faults on record stand in order, and the parser is past all of them. -/
structure Tidy (s : State) : Prop where
  ordered : s.Ordered
  sorted : s.faults.Pairwise Fault.Precedes
  past : ∀ fault ∈ s.faults, s.Past fault.token

theorem Tidy.advance (h : s.Tidy) : s.advance.Tidy where
  ordered := h.ordered.reaches (Reaches.refl s).advance
  sorted := h.sorted
  past fault member := (h.past fault member).advance h.ordered

theorem Tidy.note {event : Event} (h : s.Tidy) (silent : event.fault? = none) :
    (s.note event).Tidy := by
  have faults : (s.note event).faults = s.faults := by
    simp [State.faults, history, State.note, silent]
  refine ⟨h.ordered.reaches ((Reaches.refl s).note event), ?_, ?_⟩ <;> rw [faults]
  · exact h.sorted
  · exact h.past

/-- The number of open expressions plays no part. -/
theorem Tidy.withNesting (h : s.Tidy) (n : Nat) : Tidy { s with nesting := n } :=
  ⟨⟨h.ordered.sorted, h.ordered.real⟩, h.sorted, h.past⟩

/-- One more fault comes last, behind a position past all of the others. -/
theorem Tidy.record (h : s.Tidy) (moved : s.Reaches t) (faults : t.faults = s.faults ++ [fault])
    (further : ∀ first : Fault, s.Past first.token → first.Precedes fault)
    (past : t.Past fault.token) : t.Tidy := by
  refine ⟨h.ordered.reaches moved, ?_, ?_⟩ <;> rw [faults]
  · refine List.pairwise_append.2 ⟨h.sorted, List.pairwise_singleton _ _, ?_⟩
    intro first member other last
    obtain rfl := List.mem_singleton.1 last
    exact further first (h.past first member)
  · intro other member
    rcases List.mem_append.1 member with member | member
    · exact (h.past other member).reaches h.ordered moved
    · exact List.mem_singleton.1 member ▸ past

/-- So many braces were open before the current token. -/
def Entered (depth : Nat) (s : State) : Prop := s.braceDepth = braceStep depth s.current.kind

theorem entered_advance (s : State) : s.advance.Entered s.braceDepth := rfl

/-- The token under the reading head has been recognized, and so many braces are open. -/
structure Poised (depth : Nat) (s : State) : Prop where
  tidy : s.Tidy
  solid : s.current.kind ≠ .semicolon
  level : s.braceDepth = depth

theorem Poised.of_entered {depth : Nat} (tidy : s.Tidy) (entered : s.Entered depth)
    (inner : s.current.kind.Inner) : s.Poised depth :=
  ⟨tidy, inner.2, entered.trans (braceStep_plain inner.1 depth)⟩

theorem Poised.entered {depth : Nat} (h : s.Poised depth) : s.advance.Entered depth :=
  h.level ▸ s.entered_advance

theorem Poised.advance {depth : Nat} (h : s.Poised depth) (inner : s.peek.kind.Inner) :
    s.advance.Poised depth :=
  .of_entered h.tidy.advance h.entered inner

theorem Poised.withNesting {depth : Nat} (h : s.Poised depth) (n : Nat) :
    Poised depth { s with nesting := n } :=
  ⟨h.tidy.withNesting n, h.solid, h.level⟩

/-- A parser has given up at the token of the fault or right before it.  In the second case the
current token has been recognized.  At least so many braces are open as the depth says, those that
the current token closes included. -/
inductive Halted (depth : Nat) (fault : Fault) (s : State) : Prop
  | here {entry : Nat} (tidy : s.Tidy) (same : fault.token = s.current) (above : depth ≤ entry)
      (entered : s.Entered entry)
  | next (tidy : s.Tidy) (same : fault.token = s.peek) (solid : s.current.kind ≠ .semicolon)
      (above : depth ≤ s.braceDepth)

namespace Halted

variable {depth : Nat}

theorem tidy (h : Halted depth fault s) : s.Tidy := by
  cases h with
  | here tidy => exact tidy
  | next tidy => exact tidy

theorem withNesting (h : Halted depth fault s) (n : Nat) :
    Halted depth fault { s with nesting := n } := by
  cases h with
  | here tidy same above entered => exact .here (tidy.withNesting n) same above entered
  | next tidy same solid above => exact .next (tidy.withNesting n) same solid above

/-- The fault comes behind all that the parser is past. -/
theorem precedes (h : Halted depth fault s) {first : Fault} (past : s.Past first.token) :
    first.Precedes fault := by
  cases h with
  | here _ same => exact past.precedes same
  | next tidy same => exact (past.advance tidy.ordered).precedes same

/-- Below the depth of its statement the parser has run into the brace that closes the block, and
the fault is found at this brace. -/
theorem at_closing (h : Halted (depth + 1) fault s) (closing : s.current.kind = .rightBrace)
    (below : s.braceDepth < depth + 1) : fault.token = s.current ∧ s.braceDepth = depth := by
  cases h with
  | @here entry _ same above entered =>
    have fallen : s.braceDepth = entry - 1 := by rw [entered, closing]; rfl
    exact ⟨same, by omega⟩
  | next _ _ _ above => exact absurd above (Nat.not_le.2 below)

/-- Anywhere else the depth is not below that of the statement. -/
theorem le_braceDepth (h : Halted depth fault s)
    (inside : ¬(s.current.kind = .rightBrace ∧ s.braceDepth < depth)) : depth ≤ s.braceDepth := by
  cases h with
  | @here entry _ _ above entered =>
    refine Nat.le_of_not_lt fun below => inside ⟨?_, below⟩
    exact (braceStep_lt above (entered ▸ below)).1
  | next _ _ _ above => exact above

end Halted

/-! ### Recovery -/

/-- What is skipped after a broken statement includes the current token. -/
theorem advance_reaches_resume (s : State) (depth : Nat) :
    s.advance.Reaches (s.synchronize depth).advance := by
  by_cases boundary : s.atBoundary depth = true
  · rw [synchronize_of_boundary boundary]
    exact .refl _
  · rw [synchronize_of_not_boundary boundary]
    exact (s.advance.synchronize_reaches depth).advance

/-- A statement that may be over at a token that is no semicolon is over before a token that
closes. -/
theorem Ordered.closes_of_boundary (h : s.Ordered) {depth : Nat} (boundary : s.atBoundary depth)
    (solid : s.current.kind ≠ .semicolon) : s.peek.kind.Closes := by
  simp only [atBoundary, solid, decide_false, Bool.false_or, Bool.or_eq_true, Bool.and_eq_true,
    decide_eq_true_eq] at boundary
  rcases boundary with (ended | ended) | ⟨-, closing⟩
  · exact .inr (h.peek_ended ended)
  · exact .inr ended
  · exact .inl closing

/-- Recovery leads past the fault. -/
theorem Halted.past_resume {depth floor : Nat} (h : Halted depth fault s) :
    ((s.note (.failed fault)).synchronize floor).advance.Past fault.token := by
  have ordered : (s.note (.failed fault)).Ordered :=
    h.tidy.ordered.reaches ((Reaches.refl s).note _)
  have further := (Reaches.refl (s.note (.failed fault))).advance
  cases h with
  | here _ same =>
    have past : (s.note (.failed fault)).advance.Past fault.token := same ▸ ordered.past_current
    exact past.reaches (ordered.reaches further) (advance_reaches_resume _ floor)
  | next _ same solid =>
    by_cases boundary : (s.note (.failed fault)).atBoundary floor
    · rw [synchronize_of_boundary boundary]
      exact .inr ⟨same, same ▸ ordered.closes_of_boundary boundary solid⟩
    · rw [synchronize_of_not_boundary boundary]
      have past : (s.note (.failed fault)).advance.advance.Past fault.token :=
        same ▸ (ordered.reaches further).past_current
      exact past.reaches (ordered.reaches further.advance) (advance_reaches_resume _ floor)

/-- All is in order where parsing goes on after a broken statement. -/
theorem Halted.tidy_resume {depth floor : Nat} (h : Halted depth fault s) :
    ((s.note (.failed fault)).synchronize floor).advance.Tidy := by
  refine h.tidy.record ?_ ?_ (fun _ => h.precedes) h.past_resume
  · exact (((Reaches.refl s).note _).trans (synchronize_reaches _ floor)).advance
  · rw [faults_resume, faults_note_failed]

/-- Recovery inside of a block stops at the depth of the block, or before the end of input. -/
theorem synchronize_level {depth : Nat} (above : depth ≤ s.braceDepth) :
    depth ≤ (s.synchronize depth).braceDepth ∧
      ((s.synchronize depth).braceDepth = depth ∨
        (s.synchronize depth).current.kind = .endOfInput ∨
        (s.synchronize depth).peek.kind = .endOfInput) := by
  obtain ⟨n, -, same, skips⟩ := exists_skips above
  rw [same]
  exact ⟨skips.inside n (Nat.le_refl n), skips.level⟩

/-- A statement of a block begins at the depth of the block, or the text is over. -/
def Resumes (depth : Nat) (s : State) : Prop :=
  s.Entered depth ∨ s.current.kind = .endOfInput ∧ depth ≤ s.braceDepth

theorem resumes_synchronize {depth : Nat} (ordered : s.Ordered) (above : depth ≤ s.braceDepth) :
    (s.synchronize depth).advance.Resumes depth := by
  obtain ⟨above', level | ended⟩ := synchronize_level above
  · have entered := entered_advance (s.synchronize depth)
    rw [level] at entered
    exact .inl entered
  have ended : (s.synchronize depth).peek.kind = .endOfInput := by
    rcases ended with ended | ended
    · exact (ordered.reaches (s.synchronize_reaches depth)).peek_ended ended
    · exact ended
  refine .inr ⟨ended, ?_⟩
  rw [advance_braceDepth, ended]
  exact above'

end State

namespace Parser

open State

variable {α β : Type} {depth : Nat} {s : State} {good : State → Prop}

/-- A run has come to a good end, or it has halted at a fault. -/
def Ends (depth : Nat) (good : State → Prop) : Except Fault α × State → Prop
  | (.ok _, t) => good t
  | (.error fault, t) => Halted depth fault t

theorem Ends.of_ok {parser : Parser α} {v : α} (h : Ends depth good (parser.run s))
    (ok : (parser.run s).1 = .ok v) : good (parser.run s).2 := by
  rwa [show parser.run s = (.ok v, (parser.run s).2) from Prod.ext ok rfl] at h

theorem Ends.of_error {parser : Parser α} {fault : Fault} (h : Ends depth good (parser.run s))
    (failed : (parser.run s).1 = .error fault) : Halted depth fault (parser.run s).2 := by
  rwa [show parser.run s = (.error fault, (parser.run s).2) from Prod.ext failed rfl] at h

/-- What is computed from the value plays no part. -/
theorem Ends.map {f : α → β} {result : Except Fault α × State} (h : Ends depth good result) :
    Ends depth good (result.1.map f, result.2) := by
  obtain ⟨outcome, t⟩ := result
  cases outcome with
  | ok v => exact h
  | error fault => exact h

/-! ### Basic moves -/

/-- In a sequence the second part goes on where the first has stopped. -/
theorem ends_bind {good' : State → Prop} {first : Parser α} {second : α → Parser β}
    (h : Ends depth good (first.run s))
    (next : ∀ v t, good t → Ends depth good' ((second v).run t)) :
    Ends depth good' ((first >>= second).run s) := by
  rw [run_bind]
  generalize first.run s = result at h
  obtain ⟨outcome, t⟩ := result
  cases outcome with
  | ok v => exact next v t h
  | error fault => exact h

theorem ends_current {second : Token → Parser α}
    (h : Ends depth good ((second s.current).run s)) :
    Ends depth good ((current >>= second).run s) := h

/-- A fault at the token under the reading head. -/
theorem ends_fail {fault : Fault} (tidy : s.Tidy) (entered : s.Entered depth)
    (here : fault.token = s.current) : Ends depth good ((fail fault : Parser α).run s) :=
  .here tidy here (Nat.le_refl depth) entered

theorem ends_peekIs {kind : Kind} {yes no : Parser α}
    (found : s.peek.kind = kind → Ends depth good (yes.run s))
    (missed : s.peek.kind ≠ kind → Ends depth good (no.run s)) :
    Ends depth good ((peekIs kind >>= fun is => if is = true then yes else no).run s) := by
  rw [run_bind_ok _ (run_peekIs kind s)]
  by_cases h : s.peek.kind = kind
  · rw [if_pos (decide_eq_true h)]
    exact found h
  · rw [if_neg (by simpa using h)]
    exact missed h

/-- What has to follow is looked for where the current token has been recognized. -/
theorem ends_expect {wanted : Kind} {second : Token → Parser α} (poised : s.Poised depth)
    (next : s.peek.kind = wanted → Ends depth good ((second s.peek).run s.advance)) :
    Ends depth good ((expect wanted >>= second).run s) := by
  by_cases found : s.peek.kind = wanted
  · have step : (expect wanted).run s = (.ok s.peek, s.advance) := if_pos found
    rw [run_bind_ok second step]
    exact next found
  · have step : (expect wanted).run s = (.error (.unexpected wanted s.peek), s) := if_neg found
    rw [run_bind_error second step]
    exact .next poised.tidy rfl poised.solid (Nat.le_of_eq poised.level.symm)

/-- What has to follow and is no brace is recognized. -/
theorem ends_expect_inner {wanted : Kind} {second : Token → Parser α} (poised : s.Poised depth)
    (inner : wanted.Inner)
    (next : s.advance.Poised depth → Ends depth good ((second s.peek).run s.advance)) :
    Ends depth good ((expect wanted >>= second).run s) :=
  ends_expect poised fun found => next (poised.advance (found ▸ inner))

/-! ### Lists in parentheses -/

variable {item : Parser α}

/-- Every item is read from one recognized token to another at the same depth. -/
def Steady (depth : Nat) (item : Parser α) : Prop :=
  ∀ ⦃s⦄, s.Poised depth → Ends depth (Poised depth) (item.run s)

theorem steady_items (h : Steady depth item) : Steady depth (items item) := by
  intro s poised
  show Ends depth (Poised depth) (itemsFrom item s)
  fun_induction itemsFrom item s with
  | case1 s step fault failed =>
    exact (h poised).of_error failed
  | case2 s step first ok comma later ih =>
    have poised : step.2.Poised depth := (h poised).of_ok ok
    exact (ih (poised.advance (by rw [comma]; decide))).map
  | case3 s step first ok last => exact (h poised).of_ok ok

theorem steady_listed (h : Steady depth item) : Steady depth (listed item) := by
  intro s poised
  refine ends_peekIs (fun found => ?_) fun _ => ?_
  · exact poised.advance (by rw [found]; decide)
  · refine ends_bind (steady_items h poised) fun values t poised => ?_
    exact ends_expect_inner poised (by decide) id

/-! ### Statements and blocks -/

/-- Wherever an expression is begun, it ends at the depth that was entered. -/
def Level (expr : Precedence → Parser Expression) : Prop :=
  ∀ bound ⦃depth s⦄, s.Tidy → s.Entered depth → Ends depth (Poised depth) ((expr bound).run s)

variable {expr : Precedence → Parser Expression}

/-- An expression behind a token that has been recognized, and what follows it. -/
theorem ends_behind {second : Expression → Parser β} (h : Level expr) (poised : s.Poised depth)
    (bound : Precedence)
    (next : ∀ v t, t.Poised depth → Ends depth good ((second v).run t)) :
    Ends depth good ((do advance; let v ← expr bound; second v).run s) := by
  show Ends depth good ((expr bound >>= second).run s.advance)
  exact ends_bind (h bound poised.tidy.advance poised.entered) next

/-- A statement may end with a semicolon. -/
theorem ends_ending (poised : s.Poised depth) (statement : Statement) :
    Ends depth (fun t => t.Tidy ∧ t.braceDepth = depth)
      ((do skip .semicolon; pure statement).run s) := by
  rw [run_bind_ok _ (run_skip .semicolon s)]
  split
  · rename_i found
    refine ⟨poised.tidy.advance, ?_⟩
    rw [advance_braceDepth, found]
    exact poised.level
  · exact ⟨poised.tidy, poised.level⟩

theorem ends_statementAt (h : Level expr) (tidy : s.Tidy) (entered : s.Entered depth) :
    Ends depth (fun t => t.Tidy ∧ t.braceDepth = depth)
      ((statementAt expr s.current).run s) := by
  unfold statementAt
  split
  · rename_i kind
    have poised : s.Poised depth := .of_entered tidy entered (by rw [kind]; decide)
    refine ends_expect_inner poised (by decide) fun poised => ?_
    refine ends_expect_inner poised (by decide) fun poised => ?_
    exact ends_behind h poised .lowest fun value t poised => ends_ending poised _
  · rename_i kind
    have poised : s.Poised depth := .of_entered tidy entered (by rw [kind]; decide)
    exact ends_behind h poised .lowest fun value t poised => ends_ending poised _
  · exact ends_bind (h .lowest tidy entered) fun value t poised => ends_ending poised _

theorem ends_statement (h : Level expr) (tidy : s.Tidy) (entered : s.Entered depth) :
    Ends depth (fun t => t.Tidy ∧ t.braceDepth = depth) ((statement expr).run s) := by
  have began : (s.note (.began s.current)).Tidy := tidy.note rfl
  show Ends depth _ ((statementAt expr s.current >>= fun v => note .completed >>= fun _ =>
    pure v).run (s.note (.began s.current)))
  refine ends_bind (ends_statementAt h began entered) ?_
  rintro v t ⟨tidy, level⟩
  exact ⟨tidy.note rfl, level⟩

/-- The statements of a block end at its closing brace, or the text is over. -/
theorem ends_statementsFrom (h : Level expr) (tidy : s.Tidy) (resumes : s.Resumes (depth + 1)) :
    Ends depth (Poised depth) (statementsFrom expr (depth + 1) s) := by
  fun_induction statementsFrom expr (depth + 1) s with
  | case1 s closing =>
    obtain entered | ⟨ended, -⟩ := resumes
    · refine ⟨tidy, by rw [closing]; decide, ?_⟩
      rw [entered, closing]
      rfl
    · exact absurd (closing.symm.trans ended) (by decide)
  | case2 s _ ended =>
    -- the block is left open, so at least its own brace is open here
    have entered : s.Entered s.braceDepth := by rw [Entered, ended]; rfl
    refine .here tidy rfl ?_ entered
    obtain entered | ⟨-, above⟩ := resumes
    · rw [entered, ended]
      exact Nat.le_succ depth
    · exact Nat.le_of_succ_le above
  | case3 s _ notEnded step first ok later ih =>
    have entered : s.Entered (depth + 1) := resumes.resolve_right fun ended => notEnded ended.1
    obtain ⟨tidy', level⟩ := (ends_statement h tidy entered).of_ok ok
    exact (ih tidy'.advance (.inl (level ▸ step.2.entered_advance))).map
  | case4 s _ notEnded step fault failed broken ran =>
    have entered : s.Entered (depth + 1) := resumes.resolve_right fun ended => notEnded ended.1
    have halted : Halted (depth + 1) fault step.2 :=
      (ends_statement h tidy entered).of_error failed
    -- the fault is found at the brace that closes the block
    obtain ⟨same, level⟩ := halted.at_closing ran.1 ran.2
    have closing : fault.token.kind.Closes := .inl (same ▸ ran.1)
    have tidy' : broken.Tidy :=
      halted.tidy.record ((Reaches.refl step.2).note _) (faults_note_failed _ _)
        (fun _ => halted.precedes) (.inr ⟨same, closing⟩)
    have closed : broken.current.kind = .rightBrace := ran.1
    exact ⟨tidy', by rw [closed]; decide, level⟩
  | case5 s _ notEnded step fault failed broken stays ih =>
    have entered : s.Entered (depth + 1) := resumes.resolve_right fun ended => notEnded ended.1
    have halted : Halted (depth + 1) fault step.2 :=
      (ends_statement h tidy entered).of_error failed
    have ordered : broken.Ordered := halted.tidy.ordered.reaches ((Reaches.refl step.2).note _)
    exact ih halted.tidy_resume
      (resumes_synchronize ordered (halted.le_braceDepth stays))

/-- A block that is read to its end gives the depth back that was there before its brace. -/
theorem ends_block (h : Level expr) (tidy : s.Tidy) (opened : s.braceDepth = depth + 1) :
    Ends depth (Poised depth) ((block expr).run s) := by
  have body := ends_statementsFrom h tidy.advance (.inl (opened ▸ s.entered_advance))
  rw [← opened] at body
  show Ends depth (Poised depth) ((statements expr s.braceDepth >>= fun body =>
    pure (⟨s.current, body⟩ : Block)).run s.advance)
  exact ends_bind (show Ends depth (Poised depth) ((statements expr _).run _) from body)
    fun _ _ poised => poised

/-- A block that has to follow, and what comes behind it. -/
theorem ends_body {second : Block → Parser β} (h : Level expr) (poised : s.Poised depth)
    (next : ∀ b t, t.Poised depth → Ends depth good ((second b).run t)) :
    Ends depth good ((do let _ ← expect .leftBrace; let b ← block expr; second b).run s) := by
  refine ends_expect poised fun opened => ends_bind (ends_block h poised.tidy.advance ?_) next
  rw [advance_braceDepth, opened, poised.level]
  rfl

/-! ### Operands -/

theorem ends_integer (poised : s.Poised depth) (entered : s.Entered depth) :
    Ends depth (Poised depth) ((integer s.current).run s) := by
  unfold integer
  dsimp only
  split
  · exact poised
  · exact ends_fail poised.tidy entered rfl

theorem steady_unary (h : Level expr) (token : Token) : Steady depth (unary expr token) :=
  fun _ poised => ends_behind h poised .unary fun _ _ poised => poised

theorem steady_group (h : Level expr) : Steady depth (group expr) := fun _ poised =>
  ends_behind h poised .lowest fun _ _ poised => ends_expect_inner poised (by decide) id

theorem steady_conditional (h : Level expr) (token : Token) :
    Steady depth (conditional expr token) := by
  intro s poised
  refine ends_expect_inner poised (by decide) fun poised => ?_
  refine ends_behind h poised .lowest fun condition t poised => ?_
  refine ends_expect_inner poised (by decide) fun poised => ?_
  refine ends_body h poised fun consequence t poised => ends_peekIs (fun found => ?_) fun _ => ?_
  · have poised : t.advance.Poised depth := poised.advance (by rw [found]; decide)
    exact ends_body h poised fun alternative t poised => poised
  · exact poised

theorem steady_parameter : Steady depth parameter := fun _ poised =>
  ends_expect_inner poised (by decide) id

theorem steady_function (h : Level expr) (token : Token) : Steady depth (function expr token) := by
  intro s poised
  refine ends_expect_inner poised (by decide) fun poised => ?_
  refine ends_bind (steady_listed steady_parameter poised) fun parameters t poised => ?_
  exact ends_body h poised fun body t poised => poised

theorem ends_operand (h : Level expr) (tidy : s.Tidy) (entered : s.Entered depth) :
    Ends depth (Poised depth) ((operand expr).run s) := by
  refine ends_current ?_
  split
  case h_10 => exact ends_fail tidy entered rfl
  all_goals
    rename_i kind
    have poised : s.Poised depth := .of_entered tidy entered (by rw [kind]; decide)
  · exact poised
  · exact ends_integer poised entered
  · exact poised
  · exact poised
  · exact steady_unary h _ poised
  · exact steady_unary h _ poised
  · exact steady_group h poised
  · exact steady_conditional h _ poised
  · exact steady_function h _ poised

/-! ### Operators -/

theorem steady_argument (h : Level expr) : Steady depth (argument expr) := fun _ poised =>
  h .lowest poised.tidy.advance poised.entered

theorem steady_operation (h : Level expr) (left : Expression) :
    Steady depth (operation expr left) := by
  intro s poised
  refine ends_current ?_
  split
  · exact ends_bind (steady_listed (steady_argument h) poised) fun _ _ poised => poised
  · exact ends_behind h poised _ fun _ _ poised => poised

theorem steady_fold (h : Level expr) (bound : Precedence) (left : Expression) :
    Steady depth (fold expr bound left) := by
  intro s poised
  show Ends depth (Poised depth) (foldFrom expr bound left s)
  fun_induction foldFrom expr bound left s with
  | case1 left s tighter step whole ok ih =>
    have ended := steady_operation h left (poised.advance (Kind.inner_of_binds tighter))
    exact ih (ended.of_ok ok)
  | case2 left s tighter step fault failed =>
    have ended := steady_operation h left (poised.advance (Kind.inner_of_binds tighter))
    exact ended.of_error failed
  | case3 left s => exact poised

theorem ends_operators (h : Level expr) (bound : Precedence) (tidy : s.Tidy)
    (entered : s.Entered depth) : Ends depth (Poised depth) ((operators expr bound).run s) :=
  ends_bind (ends_operand h tidy entered) fun left _ poised => steady_fold h bound left poised

/-- The number of open expressions plays no part. -/
theorem ends_nested {parser : Parser α}
    (h : Ends depth (Poised depth) (parser.run { s with nesting := s.nesting + 1 })) :
    Ends depth (Poised depth) ((nested parser).run s) := by
  rw [run_nested]
  generalize parser.run { s with nesting := s.nesting + 1 } = result at h
  obtain ⟨outcome, t⟩ := result
  cases outcome with
  | ok v => exact Poised.withNesting h _
  | error fault => exact Halted.withNesting h _

theorem level_expressionWithin (levels : Nat) : Level (expressionWithin levels) := by
  induction levels with
  | zero => exact fun bound depth s tidy entered => .here tidy rfl (Nat.le_refl depth) entered
  | succ levels ih =>
    exact fun bound depth s tidy entered =>
      ends_nested (ends_operators ih bound (tidy.withNesting _) entered)

theorem level_expression (limit : Nat) : Level (expression limit) :=
  fun bound _ s tidy entered => level_expressionWithin (limit - s.nesting) bound tidy entered

end Parser

/-! ### Whole programs -/

namespace State

/-- All is in order before the first token is read. -/
theorem tidy_ofLexer (lexer : Lexer) : (ofLexer lexer).Tidy where
  ordered := ⟨lexer.tokenize_pairwise, lexer.kind_ne_of_mem_tokens⟩
  sorted := .nil
  past _ member := nomatch member

/-- Up to the end of input all stays in order. -/
theorem tidy_statements (limit : Nat) {s : State} (tidy : s.Tidy)
    (entered : ∃ depth, s.Entered depth) : (s.statements limit).2.Tidy := by
  have level := Parser.level_expression limit
  fun_induction State.statements limit s with
  | case1 s => exact tidy
  | case2 s _ step first ok later ih =>
    obtain ⟨depth, entered⟩ := entered
    have ended := (Parser.ends_statement level tidy entered).of_ok ok
    exact ih ended.1.advance ⟨_, step.2.entered_advance⟩
  | case3 s _ step fault failed broken ih =>
    obtain ⟨depth, entered⟩ := entered
    have halted := (Parser.ends_statement level tidy entered).of_error failed
    exact ih halted.tidy_resume ⟨_, entered_advance _⟩

end State

/-- **Faults are found in the order of the source.**  No fault is found before the place of an
earlier one, and two faults are found at the same place only if the token there is a closing brace
or the end of input. -/
theorem Parsed.ordered_ofString (source : String) :
    (ofString source).faults.Pairwise fun first second =>
      first.location ≤ second.location ∧
        (first.location = second.location →
          ∃ token, (Lexer.ofString source).tokenize.filter
              (fun other => other.location = first.location) = [token] ∧
            (token.kind = .rightBrace ∨ token.kind = .endOfInput)) := by
  have tidy : ((State.ofLexer (.ofString source)).statements maxNesting).2.Tidy :=
    State.tidy_statements maxNesting (State.tidy_ofLexer _) ⟨0, rfl⟩
  have sorted : (ofString source).faults.Pairwise Fault.Precedes := tidy.sorted
  refine sorted.imp_of_mem fun {first second} member _ precedes => ?_
  obtain lt | ⟨same, closes⟩ := precedes
  · refine ⟨.inl lt, fun equal => ?_⟩
    rw [equal] at lt
    exact absurd lt (Location.lt_irrefl _)
  · have among := (founded_ofString source first member).1
    refine ⟨.inr (congrArg Token.location same), fun _ => ⟨first.token, ?_, closes⟩⟩
    exact filter_location_of_pairwise (Lexer.tokenize_pairwise _) among

/-- A brace that closes nothing ends the statement before it and begins none. -/
example : (Parsed.ofString "let \x7d").faults.map Fault.location = [⟨1, 5⟩, ⟨1, 5⟩] := by
  decide +kernel

end MonkeyLang
