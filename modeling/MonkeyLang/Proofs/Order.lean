import MonkeyLang.Proofs.Coherence
import MonkeyLang.Proofs.Recovery
import MonkeyLang.Proofs.Soundness

/-!
# Trees keep their tokens in order

Listed in the order of the source, the tokens that a tree keeps are some of the tokens of the text,
in the order in which they stand there (`Parsed.wellFormed_ofString`).  So no token is used twice,
none is made up and none comes to a wrong place, even if the text is broken and parts of it were
given up.

`Expression.stored` lists the tokens of a tree.  What is known of a run is that it `Passes` them one
after the other: they are among the tokens between the two positions.  Runs one behind the other
pass the tokens of the first one and then those of the second one, and anything may be passed in
between (`Passes.append`, `passes_nil`).
-/

namespace MonkeyLang

/-! ### The tokens of a tree -/

mutual

/-- The tokens that an expression keeps, in the order of the source. -/
def Expression.stored : Expression → List Token
  | .identifier name => [name.token]
  | .integer token _ => [token]
  | .boolean token _ => [token]
  | .unary token _ operand => token :: operand.stored
  | .binary token left _ right => left.stored ++ token :: right.stored
  | .conditional token condition consequence alternative =>
    token :: (condition.stored ++ (consequence.stored ++ storedAlternative alternative))
  | .function token parameters body => token :: (parameters.map Identifier.token ++ body.stored)
  | .call token callee arguments => callee.stored ++ token :: storedArguments arguments

/-- The tokens that a block keeps, in the order of the source. -/
def Block.stored : Block → List Token
  | ⟨token, statements⟩ => token :: storedStatements statements

/-- The tokens that a statement keeps, in the order of the source.  A bare expression keeps its
first token once more, and that is left out. -/
def Statement.stored : Statement → List Token
  | .binding token name value => token :: name.token :: value.stored
  | .result token value => token :: value.stored
  | .expression _ value => value.stored
  | .block body => body.stored

/-- The tokens that the second block of a choice keeps, in the order of the source. -/
def storedAlternative : Option Block → List Token
  | none => []
  | some block => block.stored

/-- The tokens that the arguments of a call keep, in the order of the source. -/
def storedArguments : List Expression → List Token
  | [] => []
  | argument :: arguments => argument.stored ++ storedArguments arguments

/-- The tokens that the statements of a block or program keep, in the order of the source. -/
def storedStatements : List Statement → List Token
  | [] => []
  | statement :: statements => statement.stored ++ storedStatements statements

end

/-- The tokens that a program keeps, in the order of the source. -/
def Program.stored (program : Program) : List Token := storedStatements program.statements

theorem storedArguments_eq (arguments : List Expression) :
    storedArguments arguments = (arguments.map Expression.stored).flatten := by
  induction arguments with
  | nil => rfl
  | cons argument arguments ih => rw [storedArguments, ih, List.map_cons, List.flatten_cons]

/-! ### Passing tokens -/

namespace State

variable {s m t : State} {first second : List Token}

/-- The tokens are among those from the current one of the first position to the current one of the
second, in the same order. -/
def Passes (s : State) (tokens : List Token) (t : State) : Prop :=
  ∃ used, s.Spans used t ∧ tokens.Sublist used

/-- Any tokens may be passed over. -/
theorem passes_nil (moved : s.Reaches t) : s.Passes [] t := by
  obtain ⟨used, split⟩ := (List.tail_suffix t.tokens).trans moved.tokens_suffix
  exact ⟨used, split.symm, List.nil_sublist used⟩

/-- The token under the reading head is passed. -/
theorem passes_current (h : s.current.kind ≠ .endOfInput) : s.Passes [s.current] s :=
  ⟨[s.current], spans_current h, List.Sublist.refl _⟩

/-- What is passed was ahead. -/
theorem Passes.sublist (h : s.Passes first t) : first.Sublist s.tokens := by
  obtain ⟨used, spans, among⟩ := h
  rw [show s.tokens = used ++ t.tokens.tail from spans]
  exact among.trans (List.sublist_append_left _ _)

theorem Passes.append (h₁ : s.Passes first m) (h₂ : m.advance.Passes second t) :
    s.Passes (first ++ second) t := by
  obtain ⟨used₁, spans₁, among₁⟩ := h₁
  obtain ⟨used₂, spans₂, among₂⟩ := h₂
  exact ⟨used₁ ++ used₂, spans₁.append spans₂, among₁.append among₂⟩

/-- The token under the reading head is passed before those behind it. -/
theorem Passes.cons (h : s.current.kind ≠ .endOfInput) (behind : s.advance.Passes second t) :
    s.Passes (s.current :: second) t :=
  (passes_current h).append behind

/-- One more token is passed over at the end. -/
theorem Passes.skip (h : s.Passes first m) : s.Passes first m.advance := by
  have further := h.append (passes_nil (.refl m.advance))
  rwa [List.append_nil] at further

/-- One more token is passed over at the beginning. -/
theorem Passes.behind (h : s.advance.Passes first t) : s.Passes first t :=
  (passes_nil (.refl s)).append h

end State

namespace Parser

open State

variable {α : Type} {s m t : State} {expr : Precedence → Parser Expression}

/-- Every expression that is read keeps tokens that are passed on the way. -/
def Orderly (expr : Precedence → Parser Expression) : Prop :=
  ∀ ⦃bound s e t⦄, (expr bound).Reads (fun _ => True) s e t → s.Passes e.stored t

/-! ### Lists -/

theorem passes_items {item : Parser α} {tokens : α → List Token}
    (h : ∀ ⦃s v t⦄, item.Reads (fun _ => True) s v t → s.advance.Passes (tokens v) t)
    {vs : List α} (read : (items item).Reads (fun _ => True) s vs t) :
    s.advance.Passes (vs.map tokens).flatten t := by
  induction vs generalizing s with
  | nil =>
    obtain ⟨v, m, -, ⟨-, same, -⟩ | ⟨-, later, -, same⟩⟩ := reads_items.1 read
    · exact absurd same (by simp)
    · exact absurd same (by simp)
  | cons v vs ih =>
    obtain ⟨v', m, first, ⟨-, same, rfl⟩ | ⟨-, later, rest, same⟩⟩ := reads_items.1 read
    · obtain ⟨rfl, rfl⟩ := List.cons.inj same
      simpa using h first
    · obtain ⟨rfl, rfl⟩ := List.cons.inj same
      exact (h first).append (ih rest).behind

theorem passes_listed {item : Parser α} {tokens : α → List Token}
    (h : ∀ ⦃s v t⦄, item.Reads (fun _ => True) s v t → s.advance.Passes (tokens v) t)
    {vs : List α} (read : (listed item).Reads (fun _ => True) s vs t) :
    s.advance.Passes (vs.map tokens).flatten t := by
  obtain ⟨-, rfl, rfl⟩ | ⟨-, m, inner, -, rfl⟩ := reads_listed.1 read
  · exact passes_nil (.refl _)
  · exact (passes_items h inner).skip

/-! ### Statements and blocks -/

theorem passes_statement (h : Orderly expr) {v : Statement}
    (notEnded : s.current.kind ≠ .endOfInput)
    (read : (statement expr).Reads (fun _ => True) s v t) : s.Passes v.stored t := by
  obtain ⟨m, inner, rfl⟩ := (reads_statement expr).1 read
  -- what is passed up to the value is passed up to the end, with or without a semicolon
  have ending {u : State} {tokens : List Token} (passed : s.Passes tokens u) :
      s.Passes tokens (if u.peek.kind = .semicolon then u.advance else u) := by
    split
    · exact passed.skip
    · exact passed
  by_cases binding : s.current.kind = .letWord
  · obtain ⟨name, -, value, u, body, rfl, rfl⟩ := (reads_statementAt_binding expr binding).1 inner
    have named : s.advance.current.kind ≠ .endOfInput := fun ended =>
      absurd (ended.symm.trans name) (by decide)
    exact ending (.cons notEnded (.cons named (h body).behind))
  by_cases result : s.current.kind = .returnWord
  · obtain ⟨value, u, body, rfl, rfl⟩ := (reads_statementAt_result expr result).1 inner
    have passed := h body
    have passed : s.advance.Passes value.stored u := passed
    exact ending (.cons notEnded passed)
  · obtain ⟨value, u, body, rfl, rfl⟩ := (reads_statementAt_expression expr binding result).1 inner
    have passed := h body
    have passed : s.Passes value.stored u := passed
    exact ending passed

/-- The statements of a block keep tokens in order, those that are broken passed over. -/
theorem passes_statements (h : Orderly expr) {depth : Nat} {vs : List Statement}
    (read : (statements expr depth).Reads (fun _ => True) s vs t) :
    s.Passes (storedStatements vs) t := by
  have run : statementsFrom expr depth s = (.ok vs, t) := reads_any_iff.1 read
  clear read
  fun_induction statementsFrom expr depth s generalizing vs with
  | case1 =>
    obtain ⟨same, rfl⟩ := Prod.mk.inj run
    obtain rfl := Except.ok.inj same
    exact passes_nil (.refl _)
  | case2 => exact absurd (Prod.mk.inj run).1 (by simp)
  | case3 state _ notEnded step first ok later =>
    rename_i ih
    have read : (statement expr).run state = (.ok first, step.2) := Prod.ext ok rfl
    have here := passes_statement h notEnded (reads_any_iff.2 read)
    cases rest : statementsFrom expr depth step.2.advance with
    | mk outcome final =>
      have run : (later.1.map (first :: ·), later.2) = (.ok vs, t) := run
      rw [show later = (outcome, final) from rest] at run
      cases outcome with
      | error fault => exact absurd (Prod.mk.inj run).1 (by simp [Except.map])
      | ok others =>
        obtain ⟨same, rfl⟩ := Prod.mk.inj run
        obtain rfl := Except.ok.inj same
        exact here.append (ih rest)
  | case4 state _ _ step fault _ broken =>
    -- a broken statement has run into the closing brace
    obtain ⟨same, rfl⟩ := Prod.mk.inj run
    obtain rfl := Except.ok.inj same
    exact passes_nil (((statement expr).reaches state).note _)
  | case5 state _ _ step fault _ broken =>
    -- a broken statement is passed over
    rename_i ih
    have failed : state.Reaches broken := ((statement expr).reaches state).note _
    exact (passes_nil (failed.trans (broken.synchronize_reaches depth))).append (ih run)

theorem passes_block (h : Orderly expr) {b : Block} (opened : s.current.kind = .leftBrace)
    (read : (block expr).Reads (fun _ => True) s b t) : s.Passes b.stored t := by
  obtain ⟨body, inner, rfl⟩ := (reads_block expr).1 read
  exact .cons (by rw [opened]; decide) (passes_statements h inner)

/-! ### Operands -/

theorem passes_conditional (h : Orderly expr) {e : Expression} (word : s.current.kind = .ifWord)
    (read : (conditional expr s.current).Reads (fun _ => True) s e t) : s.Passes e.stored t := by
  obtain ⟨-, condition, m, inner, -, braced, consequence, n, first, rest⟩ :=
    (reads_conditional expr).1 read
  have word : s.current.kind ≠ .endOfInput := by rw [word]; decide
  have condition_passed := (h inner).behind.skip
  have first_passed := passes_block h (s := m.advance.advance) braced first
  obtain ⟨-, rfl, rfl⟩ | ⟨-, elseBrace, alternative, last, rfl⟩ := rest
  · refine .cons word (condition_passed.append ?_)
    rw [storedAlternative, List.append_nil]
    exact first_passed
  · have last_passed := passes_block h (s := n.advance.advance) elseBrace last
    exact .cons word (condition_passed.append (first_passed.append last_passed.behind))

theorem passes_parameter {v : Identifier} (read : parameter.Reads (fun _ => True) s v t) :
    s.advance.Passes [v.token] t := by
  obtain ⟨kind, rfl, rfl⟩ := reads_parameter.1 read
  exact passes_current (s := s.advance) fun ended => absurd (ended.symm.trans kind) (by decide)

theorem passes_function (h : Orderly expr) {e : Expression} (word : s.current.kind = .functionWord)
    (read : (function expr s.current).Reads (fun _ => True) s e t) : s.Passes e.stored t := by
  obtain ⟨-, names, m, inner, braced, body, rest, rfl⟩ := (reads_function expr).1 read
  have parameters := passes_listed (fun _ _ _ => passes_parameter) inner
  have single : (names.map fun name => [name.token]).flatten = names.map Identifier.token := by
    rw [← List.flatMap_def, ← List.map_eq_flatMap]
  rw [single] at parameters
  refine .cons (by rw [word]; decide) ?_
  exact parameters.behind.append (passes_block h braced rest)

theorem passes_operand (h : Orderly expr) {e : Expression}
    (read : (operand expr).Reads (fun _ => True) s e t) : s.Passes e.stored t := by
  rw [reads_operand] at read
  split at read
  case h_1 kind =>
    obtain ⟨rfl, rfl⟩ := read
    exact passes_current (by rw [kind]; decide)
  case h_2 kind =>
    obtain ⟨-, rfl, rfl⟩ := reads_integer.1 read
    exact passes_current (by rw [kind]; decide)
  case h_3 kind =>
    obtain ⟨rfl, rfl⟩ := read
    exact passes_current (by rw [kind]; decide)
  case h_4 kind =>
    obtain ⟨rfl, rfl⟩ := read
    exact passes_current (by rw [kind]; decide)
  case h_5 kind =>
    obtain ⟨operand, inner, rfl⟩ := (reads_unary expr).1 read
    exact .cons (by rw [kind]; decide) (h inner)
  case h_6 kind =>
    obtain ⟨operand, inner, rfl⟩ := (reads_unary expr).1 read
    exact .cons (by rw [kind]; decide) (h inner)
  case h_7 =>
    obtain ⟨m, inner, -, rfl⟩ := (reads_group expr).1 read
    exact (h inner).behind.skip
  case h_8 kind => exact passes_conditional h kind read
  case h_9 kind => exact passes_function h kind read
  case h_10 => exact read.elim

/-! ### Operators -/

/-- An operator comes behind the operand on its left. -/
theorem passes_operation (h : Orderly expr) {left e : Expression} {start : State}
    (passed : start.Passes left.stored s) (notEnded : s.peek.kind ≠ .endOfInput)
    (read : (operation expr left).Reads (fun _ => True) s.advance e t) :
    start.Passes e.stored t := by
  obtain ⟨-, arguments, inner, rfl⟩ | ⟨-, right, inner, rfl⟩ := (reads_operation expr).1 read
  · have all := passes_listed (fun _ _ _ read => h ((reads_argument expr).1 read)) inner
    rw [← storedArguments_eq] at all
    exact passed.append (.cons notEnded all)
  · exact passed.append (.cons notEnded (h inner))

theorem passes_fold (h : Orderly expr) {bound : Precedence} {left e : Expression} {start : State}
    (passed : start.Passes left.stored s)
    (read : (fold expr bound left).Reads (fun _ => True) s e t) : start.Passes e.stored t := by
  induction length : s.tokens.length using Nat.strongRecOn generalizing s left with
  | ind n ih =>
    obtain ⟨-, rfl, rfl⟩ | ⟨tighter, whole, m, step, rest⟩ := (reads_fold expr).1 read
    · exact passed
    have notEnded : s.peek.kind ≠ .endOfInput := fun ended => by
      rw [ended] at tighter
      exact Nat.not_lt_zero _ tighter
    have shorter : m.tokens.length < n := by
      have moved := step.reaches.tokens_suffix.length_le
      have two := s.two_le_length_of_peek notEnded
      rw [length_advance] at moved
      omega
    exact ih _ shorter (passes_operation h passed notEnded step) rest rfl

theorem orderly_expressionWithin (levels : Nat) : Orderly (expressionWithin levels) := by
  induction levels with
  | zero =>
    intro bound s e t read
    exact (not_reads_expressionWithin_zero read).elim
  | succ levels ih =>
    intro bound s e t read
    obtain ⟨m, inner, rfl⟩ := reads_expressionWithin.1 read
    obtain ⟨left, u, first, rest⟩ := (reads_operators _).1 inner
    have passed := passes_fold ih (passes_operand ih first) rest
    exact passed

theorem orderly_expression (limit : Nat) : Orderly (expression limit) :=
  fun _ s _ _ read => orderly_expressionWithin (limit - s.nesting) read

end Parser

/-! ### Whole programs -/

/-- The statements of a program keep tokens of those ahead, in order. -/
theorem State.stored_sublist (limit : Nat) (s : State) :
    (storedStatements (s.statements limit).1).Sublist s.tokens := by
  fun_induction State.statements limit s with
  | case1 => exact List.nil_sublist _
  | case2 s notEnded step first ok later ih =>
    have read : (Parser.statement (Parser.expression limit)).run s = (.ok first, step.2) :=
      Prod.ext ok rfl
    obtain ⟨used, spans, among⟩ := Parser.passes_statement (Parser.orderly_expression limit)
      notEnded (Parser.reads_any_iff.2 read)
    rw [show s.tokens = used ++ step.2.advance.tokens from spans]
    exact among.append ih
  | case3 s _ step fault _ broken ih =>
    have failed : s.Reaches broken :=
      ((Parser.statement (Parser.expression limit)).reaches s).note _
    exact ih.trans (failed.trans (broken.synchronize_reaches 0)).advance.tokens_suffix.sublist

/-- **Every program that comes of parsing is well-formed**, whether or not the text had faults.
Every node agrees with its token, and no name is a keyword.  The tokens that the program keeps, in
the order of the source, are some of the tokens of the text in their order, so each stands further
on in the text than those before it. -/
theorem Parsed.wellFormed_ofString (source : String) :
    (ofString source).program.Coherent Denotes ∧
      (∀ token ∈ (ofString source).program.stored, token.kind = .identifier →
        Kind.ofWord token.literal = .identifier) ∧
      (ofString source).program.stored.Sublist (Lexer.ofString source).tokens ∧
      (ofString source).program.stored.Pairwise fun first second =>
        first.location < second.location := by
  have among : (ofString source).program.stored.Sublist (Lexer.ofString source).tokens :=
    (State.ofLexer (Lexer.ofString source)).stored_sublist maxNesting
  refine ⟨coherent_ofString source, fun token member kind => ?_, among,
    (Lexer.ofString source).tokens_pairwise.sublist among⟩
  have whole := (Lexer.ofString source).whole_of_mem_tokens token (among.subset member)
  have word := whole.ofWord_eq kind
  rwa [Token.lexeme, String.ofList_toList] at word

end MonkeyLang
