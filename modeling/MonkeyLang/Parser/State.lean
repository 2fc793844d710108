import MonkeyLang.Lexer
import MonkeyLang.Parser.Fault

/-!
# The position of a parser

A `State` is a position in a sequence of tokens: the token under the reading head, which is the
`current` one, those behind it, and what the parser has to remember on its way: how many braces are
open, how many expressions are open, and which statements were begun, completed or given up.

`State.advance` moves the head by one token, and past the last one it stays on the end of input.
`State.synchronize` is the recovery from a broken statement: it moves on to the first position at
which a statement of the block in question may end.

`State.Reaches` orders the positions.  Nothing is ever read twice and nothing that has happened is
forgotten, so along this order the tokens get fewer and the events more.
-/

namespace MonkeyLang

/-- Something that happened while a source text was parsed. -/
inductive Event where
  /-- A statement was begun at a token. -/
  | began (token : Token)
  /-- The statement that was begun last was read to its end. -/
  | completed
  /-- The statement that was begun last was given up. -/
  | failed (fault : Fault)
deriving DecidableEq, Repr

/-- The fault for which a statement was given up. -/
def Event.fault? : Event → Option Fault
  | .began _ | .completed => none
  | .failed fault => some fault

/-- A position in a sequence of tokens. -/
structure State where
  /-- The tokens from the current one on, the end of input left out. -/
  tokens : List Token
  /-- The place of the end of input. -/
  finish : Location
  /-- Opening braces less closing braces up to the current token, never below zero. -/
  braceDepth : Nat
  /-- How many expressions are open. -/
  nesting : Nat
  /-- What has happened so far, the latest first. -/
  events : List Event
deriving DecidableEq, Repr

/-- How a token changes the number of open braces. -/
def braceStep (depth : Nat) : Kind → Nat
  | .leftBrace => depth + 1
  | .rightBrace => depth - 1
  | _ => depth

namespace State

/-- The token under the reading head. -/
def current (state : State) : Token := state.tokens.head?.getD (.endOfInput state.finish)

/-- The token behind the current one. -/
def peek (state : State) : Token := state.tokens.tail.head?.getD (.endOfInput state.finish)

/-- The first position in a sequence of tokens that ends at a given place. -/
def ofTokens (tokens : List Token) (finish : Location) : State :=
  let state : State := ⟨tokens, finish, 0, 0, []⟩
  { state with braceDepth := braceStep 0 state.current.kind }

/-- The first position in the tokens ahead of a lexer. -/
def ofLexer (lexer : Lexer) : State := ofTokens lexer.tokens lexer.finish

/-- The position one token further on. -/
def advance (state : State) : State :=
  { state with
    tokens := state.tokens.tail
    braceDepth := braceStep state.braceDepth state.peek.kind }

/-- The same position with one more event. -/
def note (state : State) (event : Event) : State :=
  { state with events := event :: state.events }

/-- What has happened so far, in the order in which it happened. -/
def history (state : State) : List Event := state.events.reverse

/-- The faults found so far, in the order in which they were found. -/
def faults (state : State) : List Fault := state.history.filterMap Event.fault?

@[simp] theorem advance_tokens (state : State) : state.advance.tokens = state.tokens.tail := rfl

@[simp] theorem advance_finish (state : State) : state.advance.finish = state.finish := rfl

@[simp] theorem advance_nesting (state : State) : state.advance.nesting = state.nesting := rfl

@[simp] theorem advance_events (state : State) : state.advance.events = state.events := rfl

@[simp] theorem advance_current (state : State) : state.advance.current = state.peek := rfl

@[simp] theorem advance_braceDepth (state : State) :
    state.advance.braceDepth = braceStep state.braceDepth state.peek.kind := rfl

theorem length_advance (state : State) :
    state.advance.tokens.length = state.tokens.length - 1 := List.length_tail

@[simp] theorem note_tokens (state : State) (event : Event) :
    (state.note event).tokens = state.tokens := rfl

@[simp] theorem note_current (state : State) (event : Event) :
    (state.note event).current = state.current := rfl

@[simp] theorem note_peek (state : State) (event : Event) :
    (state.note event).peek = state.peek := rfl

@[simp] theorem note_braceDepth (state : State) (event : Event) :
    (state.note event).braceDepth = state.braceDepth := rfl

@[simp] theorem note_nesting (state : State) (event : Event) :
    (state.note event).nesting = state.nesting := rfl

theorem tokens_ne_nil_of_current (state : State) (h : state.current.kind ≠ .endOfInput) :
    state.tokens ≠ [] := by
  intro empty
  simp [current, empty, Token.endOfInput] at h

/-- A token other than the end of input behind the head means that two tokens are left. -/
theorem two_le_length_of_peek (state : State) (h : state.peek.kind ≠ .endOfInput) :
    2 ≤ state.tokens.length := by
  unfold peek at h
  match tokens : state.tokens with
  | [] | [_] => simp [tokens, Token.endOfInput] at h
  | _ :: _ :: _ => simp

/-- Whether a statement that is broken inside of `depth` braces may be taken to end here: at the
end of input, and, outside of all deeper blocks, on a semicolon or before a closing brace. -/
def atBoundary (state : State) (depth : Nat) : Bool :=
  state.current.kind = .endOfInput || state.peek.kind = .endOfInput ||
    (state.braceDepth ≤ depth &&
      (state.current.kind = .semicolon || state.peek.kind = .rightBrace))

/-- The first position, from the present one on, at which a statement that is broken inside of
`depth` braces may be taken to end. -/
def synchronize (depth : Nat) (state : State) : State :=
  if state.atBoundary depth then state else state.advance.synchronize depth
termination_by state.tokens.length
decreasing_by
  rename_i notBoundary
  have here : state.current.kind ≠ .endOfInput := by
    intro h
    simp [atBoundary, h] at notBoundary
  have positive := List.length_pos_iff.2 (state.tokens_ne_nil_of_current here)
  have advanced := state.length_advance
  omega

theorem synchronize_of_boundary {depth : Nat} {state : State} (h : state.atBoundary depth) :
    state.synchronize depth = state := by
  rw [synchronize, if_pos h]

theorem synchronize_of_not_boundary {depth : Nat} {state : State} (h : ¬state.atBoundary depth) :
    state.synchronize depth = state.advance.synchronize depth := by
  rw [synchronize, if_neg h]

/-! ### The order of positions -/

/-- From one position another one is reached by moving on and by writing events down. -/
inductive Reaches : State → State → Prop
  | refl (state : State) : Reaches state state
  | advance {state later : State} : Reaches state later → Reaches state later.advance
  | note {state later : State} (event : Event) :
      Reaches state later → Reaches state (later.note event)

namespace Reaches

variable {s t u : State}

theorem trans (h₁ : Reaches s t) (h₂ : Reaches t u) : Reaches s u := by
  induction h₂ with
  | refl => exact h₁
  | advance _ ih => exact ih.advance
  | note event _ ih => exact ih.note event

/-- Nothing is read twice. -/
theorem tokens_suffix (h : Reaches s t) : t.tokens <:+ s.tokens := by
  induction h with
  | refl => exact List.suffix_rfl
  | advance _ ih => exact (List.tail_suffix _).trans ih
  | note _ _ ih => exact ih

/-- What has happened stays on record. -/
theorem events_suffix (h : Reaches s t) : s.events <:+ t.events := by
  induction h with
  | refl => exact List.suffix_rfl
  | advance _ ih => exact ih
  | note event _ ih => exact ih.trans (List.suffix_cons event _)

theorem finish_eq (h : Reaches s t) : t.finish = s.finish := by
  induction h with
  | refl => rfl
  | advance _ ih => exact ih
  | note _ _ ih => exact ih

theorem nesting_eq (h : Reaches s t) : t.nesting = s.nesting := by
  induction h with
  | refl => rfl
  | advance _ ih => exact ih
  | note _ _ ih => exact ih

/-- The number of open expressions plays no part in moving on. -/
theorem withNesting (h : Reaches s t) (n : Nat) :
    Reaches { s with nesting := n } { t with nesting := n } := by
  induction h with
  | refl => exact .refl _
  | advance _ ih => exact ih.advance
  | note event _ ih => exact ih.note event

end Reaches

/-- Recovery does not move back. -/
theorem synchronize_reaches (state : State) (depth : Nat) :
    state.Reaches (state.synchronize depth) := by
  fun_induction synchronize depth state with
  | case1 => exact .refl _
  | case2 state _ ih => exact (Reaches.refl state).advance.trans ih

/-- Going on behind a broken statement uses up a token, if there is one. -/
theorem length_resume (state : State) (depth : Nat) (fault : Fault) :
    ((state.note (.failed fault)).synchronize depth).advance.tokens.length ≤
      state.tokens.length - 1 := by
  rw [length_advance]
  exact Nat.sub_le_sub_right
    ((state.note (.failed fault)).synchronize_reaches depth).tokens_suffix.length_le 1

end State

end MonkeyLang
