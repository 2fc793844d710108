import MonkeyLang.Parser.State

/-!
# Parsers

A `Parser α` reads a value of type `α` from a position in a sequence of tokens, or finds a fault; in
either case it also says at which position it stopped.  It only moves on and writes events down, and
every parser carries the proof of this (`Parser.reaches`).  So the tokens that it leaves are a
suffix of those that it was given, which is what makes the repetitions built on parsers terminate.

Besides sequencing there are the basic moves (`advance`, `expect`, `skip`), lists in parentheses
(`listed`), and `nested`, which counts the expressions that are open.
-/

namespace MonkeyLang

/-- A way to read a value from a position in a sequence of tokens. -/
structure Parser (α : Type) where
  /-- The value or the fault, and the position at which the parser stopped. -/
  run : State → Except Fault α × State
  /-- A parser only moves on and writes events down. -/
  reaches (state : State) : state.Reaches (run state).2

namespace Parser

variable {α β : Type}

theorem length_le (parser : Parser α) (state : State) :
    (parser.run state).2.tokens.length ≤ state.tokens.length :=
  (parser.reaches state).tokens_suffix.length_le

theorem length_le_of_run {parser : Parser α} {state later : State} {outcome : Except Fault α}
    (step : parser.run state = (outcome, later)) : later.tokens.length ≤ state.tokens.length := by
  have moved := parser.length_le state
  rwa [step] at moved

/-! ### Sequencing -/

/-- The second parser goes on where the first stopped, unless that found a fault. -/
def andThen (first : Parser α) (second : α → Parser β) : Parser β where
  run state :=
    match first.run state with
    | (.ok value, state) => (second value).run state
    | (.error fault, state) => (.error fault, state)
  reaches state := by
    have one := first.reaches state
    split
    · rename_i value middle h
      rw [h] at one
      exact one.trans ((second value).reaches middle)
    · rename_i fault middle h
      rw [h] at one
      exact one

instance : Monad Parser where
  pure value := ⟨fun state => (.ok value, state), .refl⟩
  bind := andThen

/-- Parsers that do the same at every position are the same. -/
@[ext] theorem ext {p q : Parser α} (h : ∀ state, p.run state = q.run state) : p = q := by
  obtain ⟨run, _⟩ := p
  obtain ⟨run', _⟩ := q
  obtain rfl : run = run' := funext h
  rfl

@[simp] theorem run_pure (value : α) (state : State) :
    (pure value : Parser α).run state = (.ok value, state) := rfl

theorem run_bind (first : Parser α) (second : α → Parser β) (state : State) :
    (first >>= second).run state =
      match first.run state with
      | (.ok value, state) => (second value).run state
      | (.error fault, state) => (.error fault, state) := rfl

theorem run_bind_ok {first : Parser α} {state middle : State} {value : α}
    (second : α → Parser β) (h : first.run state = (.ok value, middle)) :
    (first >>= second).run state = (second value).run middle := by
  rw [run_bind, h]

theorem run_bind_error {first : Parser α} {state middle : State} {fault : Fault}
    (second : α → Parser β) (h : first.run state = (.error fault, middle)) :
    (first >>= second).run state = (.error fault, middle) := by
  rw [run_bind, h]

instance : LawfulMonad Parser := LawfulMonad.mk' Parser
  (fun parser => Parser.ext fun state => by
    show (parser >>= fun value => pure value).run state = parser.run state
    rw [run_bind]
    cases h : parser.run state with
    | mk outcome later => cases outcome <;> rfl)
  (fun value second => rfl)
  (fun first second third => Parser.ext fun state => by
    rw [run_bind, run_bind, run_bind]
    cases h : first.run state with
    | mk outcome later => cases outcome <;> rfl)

/-! ### Basic moves -/

/-- Gives up with a fault. -/
def fail (fault : Fault) : Parser α := ⟨fun state => (.error fault, state), .refl⟩

/-- Looks at the position without moving. -/
def look (view : State → α) : Parser α :=
  ⟨fun state => (.ok (view state), state), .refl⟩

/-- The token under the reading head. -/
def current : Parser Token := look State.current

/-- Whether the token behind the current one is of a given kind. -/
def peekIs (kind : Kind) : Parser Bool := look fun state => decide (state.peek.kind = kind)

/-- Writes an event down. -/
def note (event : Event) : Parser Unit :=
  ⟨fun state => (.ok (), state.note event), fun state => (State.Reaches.refl state).note event⟩

/-- Moves on by one token. -/
def advance : Parser Unit :=
  ⟨fun state => (.ok (), state.advance), fun state => (State.Reaches.refl state).advance⟩

/-- Moves on to the next token and gives it, if it is of the wanted kind; otherwise finds the fault
without moving. -/
def expect (wanted : Kind) : Parser Token where
  run state :=
    if state.peek.kind = wanted then (.ok state.peek, state.advance)
    else (.error (.unexpected wanted state.peek), state)
  reaches state := by
    split
    · exact (State.Reaches.refl state).advance
    · exact .refl state

/-- Moves on to the next token if it is of a given kind. -/
def skip (kind : Kind) : Parser Unit where
  run state := (.ok (), if state.peek.kind = kind then state.advance else state)
  reaches state := by
    dsimp only
    split
    · exact (State.Reaches.refl state).advance
    · exact .refl state

@[simp] theorem run_fail (fault : Fault) (state : State) :
    (fail fault : Parser α).run state = (.error fault, state) := rfl

@[simp] theorem run_look (view : State → α) (state : State) :
    (look view).run state = (.ok (view state), state) := rfl

@[simp] theorem run_current (state : State) : current.run state = (.ok state.current, state) := rfl

@[simp] theorem run_peekIs (kind : Kind) (state : State) :
    (peekIs kind).run state = (.ok (decide (state.peek.kind = kind)), state) := rfl

@[simp] theorem run_note (event : Event) (state : State) :
    (note event).run state = (.ok (), state.note event) := rfl

@[simp] theorem run_advance (state : State) : advance.run state = (.ok (), state.advance) := rfl

theorem run_expect (wanted : Kind) (state : State) :
    (expect wanted).run state =
      if state.peek.kind = wanted then (.ok state.peek, state.advance)
      else (.error (.unexpected wanted state.peek), state) := rfl

@[simp] theorem run_skip (kind : Kind) (state : State) :
    (skip kind).run state = (.ok (), if state.peek.kind = kind then state.advance else state) := rfl

/-! ### Lists in parentheses -/

/-- One item, and after a comma the next. -/
def itemsFrom (item : Parser α) (state : State) : Except Fault (List α) × State :=
  let step := item.run state
  match step.1 with
  | .error fault => (.error fault, step.2)
  | .ok first =>
    if step.2.peek.kind = .comma then
      let later := itemsFrom item step.2.advance
      (later.1.map (first :: ·), later.2)
    else (.ok [first], step.2)
termination_by state.tokens.length
decreasing_by
  rename_i comma
  have shorter := item.length_le state
  have two := (item.run state).2.two_le_length_of_peek fun ended =>
    absurd (ended.symm.trans comma) (by decide)
  have advanced := (item.run state).2.length_advance
  omega

theorem itemsFrom_of_error {item : Parser α} {state later : State} {fault : Fault}
    (step : item.run state = (.error fault, later)) :
    itemsFrom item state = (.error fault, later) := by
  rw [itemsFrom, step]

theorem itemsFrom_of_last {item : Parser α} {state later : State} {value : α}
    (step : item.run state = (.ok value, later)) (h : later.peek.kind ≠ .comma) :
    itemsFrom item state = (.ok [value], later) := by
  rw [itemsFrom, step]
  exact if_neg h

theorem itemsFrom_of_comma {item : Parser α} {state later : State} {value : α}
    (step : item.run state = (.ok value, later)) (h : later.peek.kind = .comma) :
    itemsFrom item state =
      ((itemsFrom item later.advance).1.map (value :: ·), (itemsFrom item later.advance).2) := by
  rw [itemsFrom, step]
  exact if_pos h

/-- A list of items does not move back. -/
theorem itemsFrom_reaches (item : Parser α) (state : State) :
    state.Reaches (itemsFrom item state).2 := by
  fun_induction itemsFrom item state with
  | case1 state => exact item.reaches state
  | case2 state step first _ _ later ih => exact (item.reaches state).advance.trans ih
  | case3 state => exact item.reaches state

/-- One or more items with commas between them. -/
def items (item : Parser α) : Parser (List α) := ⟨itemsFrom item, itemsFrom_reaches item⟩

/-- The first item comes first, and if a comma follows it, the others come behind that. -/
theorem items_eq (item : Parser α) :
    items item = (do
      let first ← item
      if ← peekIs .comma then
        advance
        let later ← items item
        pure (first :: later)
      else pure [first]) := by
  ext1 state
  show itemsFrom item state = _
  cases step : item.run state with
  | mk outcome later =>
    cases outcome with
    | error fault => rw [itemsFrom_of_error step, run_bind_error _ step]
    | ok first =>
      rw [run_bind_ok _ step, run_bind_ok _ (run_peekIs .comma later)]
      by_cases comma : later.peek.kind = .comma
      · rw [itemsFrom_of_comma step comma, if_pos (decide_eq_true comma),
          run_bind_ok _ (run_advance later)]
        cases rest : (items item).run later.advance with
        | mk outcome last =>
          have unfolded : itemsFrom item later.advance = (outcome, last) := rest
          cases outcome with
          | error fault => rw [unfolded, run_bind_error _ rest]; rfl
          | ok others => rw [unfolded, run_bind_ok _ rest]; rfl
      · rw [itemsFrom_of_last step comma, if_neg (by simpa using comma), run_pure]

/-- Items with commas between them up to a closing parenthesis, read from the opening one on. -/
def listed (item : Parser α) : Parser (List α) := do
  if ← peekIs .rightParen then
    advance
    pure []
  else
    let values ← items item
    let _ ← expect .rightParen
    pure values

/-! ### Nesting -/

/-- Runs a parser with one more expression open, which is closed again afterwards. -/
def nested (parser : Parser α) : Parser α where
  run state :=
    match parser.run { state with nesting := state.nesting + 1 } with
    | (outcome, state) => (outcome, { state with nesting := state.nesting - 1 })
  reaches state := by
    have inside := parser.reaches { state with nesting := state.nesting + 1 }
    have outside := inside.withNesting state.nesting
    have counted := inside.nesting_eq
    dsimp only at counted ⊢
    rw [counted]
    exact outside

theorem run_nested (parser : Parser α) (state : State) :
    (nested parser).run state =
      ((parser.run { state with nesting := state.nesting + 1 }).1,
        { (parser.run { state with nesting := state.nesting + 1 }).2 with
          nesting := (parser.run { state with nesting := state.nesting + 1 }).2.nesting - 1 }) :=
  rfl

end Parser

end MonkeyLang
