import MonkeyLang.Proofs.Phrase
import MonkeyLang.Proofs.Reading
import MonkeyLang.Proofs.Spelling

/-!
# Trees that the parser can return

A tree is `Coherent` if every node keeps a token of the right kind, as it is read from a text, and
the name, the operator or the truth value that this token says.  What an integer literal says is a
parameter; for the parser it is the value of the literal, which is in range (`Denotes`).

Every program that comes of parsing is coherent, whether or not the text had faults
(`Parsed.coherent_ofString`).  This is a case of an induction over all that the parser builds: what
every construct `Upholds` is true of every tree that is read (`Parser.Upholds.expressionWithin`,
`State.gives_statements`).

A statement that is given up leaves nothing in the tree, so only the runs that end well matter, and
what they read is known from the lemmas on `Parser.Reads`, with every fault tolerated.  The blocks
are the exception: there the broken statements are passed over.
-/

namespace MonkeyLang

/-- A token of an allowed kind, as it is read from a text. -/
structure Token.Fits (allowed : Kind → Prop) (token : Token) : Prop where
  whole : token.lexeme.Whole
  kind : allowed token.kind

/-- A name is what its token says. -/
def Identifier.Coherent (name : Identifier) : Prop :=
  name.token.Fits (· = .identifier) ∧ name.name = name.token.literal

/-- The value of an integer literal, which is in range. -/
def Denotes (digits : String) (value : Int) : Prop :=
  numeralValue digits.toList ≤ maxInteger ∧ value = numeralValue digits.toList

section
variable (number : String → Int → Prop)

mutual

/-- Every node of the expression agrees with its token. -/
def Expression.Coherent : Expression → Prop
  | .identifier name => name.Coherent
  | .integer token value => token.Fits (· = .integer) ∧ number token.literal value
  | .boolean token value => token.Fits (· = if value then .trueWord else .falseWord)
  | .unary token operator operand =>
    token.Fits Kind.IsUnary ∧ operator = token.literal ∧ operand.Coherent
  | .binary token left operator right =>
    token.Fits Kind.IsBinary ∧ operator = token.literal ∧ left.Coherent ∧ right.Coherent
  | .conditional token condition consequence alternative =>
    token.Fits (· = .ifWord) ∧ condition.Coherent ∧ consequence.Coherent ∧
      CoherentAlternative alternative
  | .function token parameters body =>
    token.Fits (· = .functionWord) ∧ (∀ parameter ∈ parameters, parameter.Coherent) ∧
      body.Coherent
  | .call token callee arguments =>
    token.Fits (· = .leftParen) ∧ callee.Coherent ∧ CoherentArguments arguments

/-- Every node of the block agrees with its token. -/
def Block.Coherent : Block → Prop
  | ⟨token, statements⟩ => token.Fits (· = .leftBrace) ∧ CoherentStatements statements

/-- Every node of the statement agrees with its token.  No block stands by itself. -/
def Statement.Coherent : Statement → Prop
  | .binding token name value => token.Fits (· = .letWord) ∧ name.Coherent ∧ value.Coherent
  | .result token value => token.Fits (· = .returnWord) ∧ value.Coherent
  | .expression _ value => value.Coherent
  | .block _ => False

/-- Every node of the second block of a choice agrees with its token. -/
def CoherentAlternative : Option Block → Prop
  | none => True
  | some block => block.Coherent

/-- Every node of the arguments agrees with its token. -/
def CoherentArguments : List Expression → Prop
  | [] => True
  | argument :: arguments => argument.Coherent ∧ CoherentArguments arguments

/-- Every node of the statements agrees with its token. -/
def CoherentStatements : List Statement → Prop
  | [] => True
  | statement :: statements => statement.Coherent ∧ CoherentStatements statements

end

/-- Every node of the program agrees with its token. -/
def Program.Coherent (program : Program) : Prop := CoherentStatements number program.statements

end

variable {number : String → Int → Prop}

theorem coherentArguments_iff {arguments : List Expression} :
    CoherentArguments number arguments ↔ ∀ argument ∈ arguments, argument.Coherent number := by
  induction arguments with
  | nil => simp [CoherentArguments]
  | cons argument arguments ih => simp [CoherentArguments, ih]

theorem coherentStatements_iff {statements : List Statement} :
    CoherentStatements number statements ↔
      ∀ statement ∈ statements, statement.Coherent number := by
  induction statements with
  | nil => simp [CoherentStatements]
  | cons statement statements ih => simp [CoherentStatements, ih]

/-! ### Tokens ahead -/

namespace State

variable {s t : State}

/-- All tokens ahead are as they are read from a text. -/
def Whole (s : State) : Prop := ∀ token ∈ s.tokens, token.lexeme.Whole

theorem Whole.reaches (h : s.Whole) (moved : s.Reaches t) : t.Whole :=
  fun token member => h token (moved.tokens_suffix.subset member)

theorem Whole.advance (h : s.Whole) : s.advance.Whole := h.reaches (Reaches.refl s).advance

theorem Whole.fits {kind : Kind} (h : s.Whole) (current : s.current.kind = kind)
    (notEnd : kind ≠ .endOfInput) : s.current.Fits (· = kind) := by
  refine ⟨?_, current⟩
  have nonempty := s.tokens_ne_nil_of_current (current ▸ notEnd)
  cases tokens : s.tokens with
  | nil => exact absurd tokens nonempty
  | cons token more =>
    have same : s.current = token := by simp [State.current, tokens]
    rw [same]
    exact h token (by simp [tokens])

theorem Whole.fits_peek {kind : Kind} (h : s.Whole) (peek : s.peek.kind = kind)
    (notEnd : kind ≠ .endOfInput) : s.peek.Fits (· = kind) :=
  h.advance.fits peek notEnd

end State

namespace Parser

open State

variable {α : Type} {s t : State} {expr : Precedence → Parser Expression}

/-- With every fault tolerated, what is read is the value of a run that ends well. -/
theorem reads_any_iff {parser : Parser α} {v : α} :
    parser.Reads (fun _ => True) s v t ↔ parser.run s = (.ok v, t) := by
  refine ⟨fun h => h.1, fun run => ⟨run, ?_⟩⟩
  have moved := parser.reaches s
  rw [run] at moved
  obtain ⟨found, added⟩ := moved.faults_le
  exact ⟨found, added.symm, fun _ _ => trivial⟩

/-- The values that a parser reads from whole tokens are good. -/
def Gives (parser : Parser α) (good : α → Prop) : Prop :=
  ∀ ⦃s v t⦄, s.Whole → parser.Reads (fun _ => True) s v t → good v

/-- A parser of expressions gives coherent ones. -/
def Sane (expr : Precedence → Parser Expression) : Prop :=
  ∀ bound, (expr bound).Gives (Expression.Coherent Denotes)

/-- The block keeps its brace, and all its statements are good. -/
def BlockOf (good : Statement → Prop) (b : Block) : Prop :=
  b.token.Fits (· = .leftBrace) ∧ ∀ w ∈ b.statements, good w

/-- What is true of the parts is true of the whole, in every construct of the language.  The
expressions inside are `inner`, and the expression that is built is `outer`.  A callee or the left
operand of an operator is `outer` already, since it was built at the same level. -/
structure Upholds (inner outer : Expression → Prop) (good : Statement → Prop) : Prop where
  name {token : Token} : token.Fits (· = .identifier) → outer (.identifier ⟨token, token.literal⟩)
  integer {token : Token} : token.Fits (· = .integer) →
    numeralValue token.literal.toList ≤ maxInteger →
    outer (.integer token (numeralValue token.literal.toList))
  truth {token : Token} (value : Bool) :
    token.Fits (· = if value then .trueWord else .falseWord) → outer (.boolean token value)
  group {e : Expression} : inner e → outer e
  unary {token : Token} {operand : Expression} : token.Fits Kind.IsUnary → inner operand →
    outer (.unary token token.literal operand)
  conditional {token : Token} {condition : Expression} {consequence : Block}
    {alternative : Option Block} : token.Fits (· = .ifWord) → inner condition →
    BlockOf good consequence → (∀ b ∈ alternative, BlockOf good b) →
    outer (.conditional token condition consequence alternative)
  function {token : Token} {parameters : List Identifier} {body : Block} :
    token.Fits (· = .functionWord) → (∀ parameter ∈ parameters, parameter.Coherent) →
    BlockOf good body → outer (.function token parameters body)
  call {token : Token} {callee : Expression} {arguments : List Expression} :
    token.Fits (· = .leftParen) → outer callee → (∀ argument ∈ arguments, inner argument) →
    outer (.call token callee arguments)
  binary {token : Token} {left right : Expression} : token.Fits Kind.IsBinary → outer left →
    inner right → outer (.binary token left token.literal right)
  binding {token : Token} {name : Identifier} {value : Expression} :
    token.Fits (· = .letWord) → name.Coherent → inner value → good (.binding token name value)
  result {token : Token} {value : Expression} : token.Fits (· = .returnWord) → inner value →
    good (.result token value)
  bare {token : Token} {value : Expression} : inner value → good (.expression token value)

/-! ### Lists -/

theorem gives_items {item : Parser α} {good : α → Prop} (h : item.Gives good) :
    (items item).Gives fun vs => ∀ v ∈ vs, good v := by
  intro s vs t whole read
  induction vs generalizing s with
  | nil => simp
  | cons v vs ih =>
    obtain ⟨v', m, first, ⟨-, same, -⟩ | ⟨-, later, rest, same⟩⟩ := reads_items.1 read
    · obtain ⟨rfl, rfl⟩ := List.cons.inj same
      simpa using h whole first
    · obtain ⟨rfl, rfl⟩ := List.cons.inj same
      have others := ih (whole.reaches first.reaches).advance rest
      exact List.forall_mem_cons.2 ⟨h whole first, others⟩

theorem gives_listed {item : Parser α} {good : α → Prop} (h : item.Gives good) :
    (listed item).Gives fun vs => ∀ v ∈ vs, good v := by
  intro s vs t whole read
  obtain ⟨-, rfl, -⟩ | ⟨-, m, inner, -, -⟩ := reads_listed.1 read
  · simp
  · exact gives_items h whole inner

/-- The statements of a block, those that are broken passed over. -/
theorem gives_statements {good : Statement → Prop} (h : (statement expr).Gives good)
    (depth : Nat) : (statements expr depth).Gives fun ws => ∀ w ∈ ws, good w := by
  intro s vs t whole read
  have run : statementsFrom expr depth s = (.ok vs, t) := reads_any_iff.1 read
  clear read
  fun_induction statementsFrom expr depth s generalizing vs with
  | case1 =>
    -- the closing brace
    obtain rfl := Except.ok.inj (Prod.mk.inj run).1
    simp
  | case2 => exact absurd (Prod.mk.inj run).1 (by simp)
  | case3 state _ _ step first ok later =>
    rename_i ih
    have read : (statement expr).run state = (.ok first, step.2) := Prod.ext ok rfl
    cases rest : statementsFrom expr depth step.2.advance with
    | mk outcome final =>
      have run : (later.1.map (first :: ·), later.2) = (.ok vs, t) := run
      rw [show later = (outcome, final) from rest] at run
      cases outcome with
      | error fault => exact absurd (Prod.mk.inj run).1 (by simp [Except.map])
      | ok others =>
        obtain ⟨same, rfl⟩ := Prod.mk.inj run
        obtain rfl := Except.ok.inj same
        have here := h whole (reads_any_iff.2 read)
        have moved := (statement expr).reaches state
        exact List.forall_mem_cons.2 ⟨here, ih (whole.reaches moved).advance rest⟩
  | case4 =>
    -- a broken statement has run into the closing brace
    obtain rfl := Except.ok.inj (Prod.mk.inj run).1
    simp
  | case5 state _ _ step fault _ broken =>
    -- a broken statement is passed over
    rename_i ih
    have failed : state.Reaches broken := ((statement expr).reaches state).note _
    exact ih (whole.reaches (failed.trans (broken.synchronize_reaches depth)).advance) run

theorem gives_parameter : parameter.Gives Identifier.Coherent := by
  intro s v t whole read
  obtain ⟨kind, rfl, -⟩ := reads_parameter.1 read
  exact ⟨whole.fits_peek kind (by decide), rfl⟩

/-! ### What every construct upholds -/

namespace Upholds

variable {inner outer : Expression → Prop} {good : Statement → Prop} {e : Expression}

section
variable (rules : Upholds inner outer good) (h : ∀ bound, (expr bound).Gives inner)
include rules h

theorem statement : (statement expr).Gives good := by
  intro s v t whole read
  obtain ⟨u, inside, -⟩ := (reads_statement expr).1 read
  have whole : (s.note (.began s.current)).Whole := whole
  by_cases binding : s.current.kind = .letWord
  · obtain ⟨name, assign, value, m, body, -, rfl⟩ :=
      (reads_statementAt_binding expr binding).1 inside
    refine rules.binding (whole.fits binding (by decide))
      ⟨whole.fits_peek name (by decide), rfl⟩ ?_
    exact h _ whole.advance.advance.advance body
  by_cases result : s.current.kind = .returnWord
  · obtain ⟨value, m, body, -, rfl⟩ := (reads_statementAt_result expr result).1 inside
    exact rules.result (whole.fits result (by decide)) (h _ whole.advance body)
  · obtain ⟨value, m, body, -, rfl⟩ := (reads_statementAt_expression expr binding result).1 inside
    exact rules.bare (h _ whole body)

theorem block {b : Block} (whole : s.Whole) (opened : s.current.kind = .leftBrace)
    (read : (block expr).Reads (fun _ => True) s b t) : BlockOf good b := by
  obtain ⟨body, inside, rfl⟩ := (reads_block expr).1 read
  exact ⟨whole.fits opened (by decide),
    gives_statements (rules.statement h) _ whole.advance inside⟩

theorem conditional_read (whole : s.Whole) (word : s.current.kind = .ifWord)
    (read : (Parser.conditional expr s.current).Reads (fun _ => True) s e t) : outer e := by
  obtain ⟨-, condition, m, inside, -, braced, consequence, n, first, rest⟩ :=
    (reads_conditional expr).1 read
  have choice := whole.fits word (by decide)
  have first_good := h _ whole.advance.advance inside
  have whole₁ := (whole.advance.advance.reaches inside.reaches).advance.advance
  have second := rules.block h whole₁ braced first
  obtain ⟨-, rfl, -⟩ | ⟨-, elseBrace, alternative, last, rfl⟩ := rest
  · exact rules.conditional choice first_good second (by simp)
  · have third := rules.block h (whole₁.reaches first.reaches).advance.advance elseBrace last
    exact rules.conditional choice first_good second (by simpa using third)

theorem function_read (whole : s.Whole) (word : s.current.kind = .functionWord)
    (read : (Parser.function expr s.current).Reads (fun _ => True) s e t) : outer e := by
  obtain ⟨-, names, m, listed, braced, body, rest, rfl⟩ := (reads_function expr).1 read
  have parameters := gives_listed gives_parameter whole.advance listed
  have block := rules.block h (whole.advance.reaches listed.reaches).advance braced rest
  exact rules.function (whole.fits word (by decide)) parameters block

theorem unary_read (whole : s.Whole) (kind : s.current.kind.IsUnary)
    (read : (Parser.unary expr s.current).Reads (fun _ => True) s e t) : outer e := by
  obtain ⟨operand, inside, rfl⟩ := (reads_unary expr).1 read
  have notEnd : s.current.kind ≠ .endOfInput := fun ended => by rw [ended] at kind; exact kind
  exact rules.unary ⟨(whole.fits rfl notEnd).whole, kind⟩ (h _ whole.advance inside)

theorem operand : (operand expr).Gives outer := by
  intro s e t whole read
  rw [reads_operand] at read
  split at read
  case h_1 kind =>
    obtain ⟨rfl, -⟩ := read
    exact rules.name (whole.fits kind (by decide))
  case h_2 kind =>
    obtain ⟨inRange, rfl, -⟩ := reads_integer.1 read
    exact rules.integer (whole.fits kind (by decide)) inRange
  case h_3 kind =>
    obtain ⟨rfl, -⟩ := read
    exact rules.truth true (whole.fits kind (by decide))
  case h_4 kind =>
    obtain ⟨rfl, -⟩ := read
    exact rules.truth false (whole.fits kind (by decide))
  case h_5 kind => exact rules.unary_read h whole (by rw [kind]; trivial) read
  case h_6 kind => exact rules.unary_read h whole (by rw [kind]; trivial) read
  case h_7 =>
    obtain ⟨m, inside, -, -⟩ := (reads_group expr).1 read
    exact rules.group (h _ whole.advance inside)
  case h_8 kind => exact rules.conditional_read h whole kind read
  case h_9 kind => exact rules.function_read h whole kind read
  case h_10 => exact read.elim

theorem operation {left : Expression} (built : outer left) (whole : s.Whole)
    (binds : .lowest < Precedence.ofKind s.current.kind)
    (read : (operation expr left).Reads (fun _ => True) s e t) : outer e := by
  have notEnd : s.current.kind ≠ .endOfInput := fun ended => by
    rw [ended] at binds
    exact absurd binds (by decide)
  have here := whole.fits rfl notEnd
  obtain ⟨opened, arguments, listed, rfl⟩ | ⟨notOpened, right, inside, rfl⟩ :=
    (reads_operation expr).1 read
  · have argument : (argument expr).Gives inner :=
      fun s v t whole read => h _ whole.advance ((reads_argument expr).1 read)
    exact rules.call ⟨here.whole, opened⟩ built (gives_listed argument whole listed)
  · have binary : s.current.kind.IsBinary := Kind.isBinary_iff.2 ⟨binds, notOpened⟩
    exact rules.binary ⟨here.whole, binary⟩ built (h _ whole.advance inside)

/-- The loop over operators goes on from what has been built. -/
theorem fold {bound : Precedence} {left : Expression} (built : outer left) (whole : s.Whole)
    (read : (fold expr bound left).Reads (fun _ => True) s e t) : outer e := by
  induction length : s.tokens.length using Nat.strongRecOn generalizing s left with
  | ind n ih =>
    obtain ⟨-, rfl, -⟩ | ⟨tighter, next, m, step, rest⟩ := (reads_fold expr).1 read
    · exact built
    have binds : .lowest < Precedence.ofKind s.peek.kind :=
      Nat.lt_of_le_of_lt (Nat.zero_le _) tighter
    have shorter : m.tokens.length < n := by
      have moved := step.reaches.tokens_suffix.length_le
      have two := s.two_le_length_of_peek fun ended => by
        rw [ended] at binds
        exact absurd binds (by decide)
      rw [length_advance] at moved
      omega
    have grown := rules.operation h built whole.advance binds step
    exact ih m.tokens.length shorter grown (whole.advance.reaches step.reaches) rest rfl

end

/-- With one more level, what is built from inner expressions is read. -/
theorem expressionWithin {levels : Nat} (rules : Upholds inner outer good)
    (h : ∀ bound, (expressionWithin levels bound).Gives inner) (bound : Precedence) :
    (expressionWithin (levels + 1) bound).Gives outer := by
  intro s e t whole read
  obtain ⟨m, inside, -⟩ := reads_expressionWithin.1 read
  obtain ⟨left, u, first, rest⟩ := (reads_operators _).1 inside
  have whole : ({ s with nesting := s.nesting + 1 } : State).Whole := whole
  exact rules.fold h (rules.operand h whole first) (whole.reaches first.reaches) rest

/-- If every level upholds what is true of the level inside, then it is true of what is read with so
many levels. -/
theorem gives {within : Nat → Expression → Prop} {good : Nat → Statement → Prop}
    (rules : ∀ levels, Upholds (within levels) (within (levels + 1)) (good levels)) (levels : Nat)
    (bound : Precedence) : (Parser.expressionWithin levels bound).Gives (within levels) := by
  induction levels generalizing bound with
  | zero => exact fun s e t _ read => (not_reads_expressionWithin_zero read).elim
  | succ levels ih => exact (rules levels).expressionWithin ih bound

end Upholds

/-! ### Coherent trees -/

theorem coherent_of_blockOf {b : Block} (h : BlockOf (Statement.Coherent Denotes) b) :
    b.Coherent Denotes := by
  obtain ⟨token, statements⟩ := b
  exact ⟨h.1, coherentStatements_iff.2 h.2⟩

theorem upholds_coherent : Upholds (Expression.Coherent Denotes) (Expression.Coherent Denotes)
    (Statement.Coherent Denotes) where
  name fits := ⟨fits, rfl⟩
  integer fits inRange := ⟨fits, inRange, rfl⟩
  truth _ fits := fits
  group coherent := coherent
  unary fits operand := ⟨fits, rfl, operand⟩
  conditional {_ _ _ alternative} fits condition consequence others := by
    refine ⟨fits, condition, coherent_of_blockOf consequence, ?_⟩
    cases alternative with
    | none => trivial
    | some b => exact coherent_of_blockOf (others b rfl)
  function fits parameters body := ⟨fits, parameters, coherent_of_blockOf body⟩
  call fits callee arguments := ⟨fits, callee, coherentArguments_iff.2 arguments⟩
  binary fits left right := ⟨fits, rfl, left, right⟩
  binding fits name value := ⟨fits, name, value⟩
  result fits value := ⟨fits, value⟩
  bare value := value

theorem sane_expressionWithin (levels : Nat) : Sane (expressionWithin levels) :=
  Upholds.gives (fun _ => upholds_coherent) levels

theorem sane_expression (limit : Nat) : Sane (expression limit) :=
  fun bound s _ _ whole read => sane_expressionWithin (limit - s.nesting) bound whole read

end Parser

/-! ### Whole programs -/

/-- The statements of a program are good, those that are broken passed over. -/
theorem State.gives_statements {limit : Nat} {good : Statement → Prop}
    (h : (Parser.statement (Parser.expression limit)).Gives good) {s : State} (whole : s.Whole) :
    ∀ w ∈ (s.statements limit).1, good w := by
  fun_induction State.statements limit s with
  | case1 => simp
  | case2 s _ step first ok later ih =>
    have moved := (Parser.statement (Parser.expression limit)).reaches s
    have read : (Parser.statement (Parser.expression limit)).run s = (.ok first, step.2) :=
      Prod.ext ok rfl
    exact List.forall_mem_cons.2
      ⟨h whole (Parser.reads_any_iff.2 read), ih (whole.reaches moved).advance⟩
  | case3 s _ step fault _ broken ih =>
    -- nothing of a broken statement is kept
    have failed : s.Reaches broken :=
      ((Parser.statement (Parser.expression limit)).reaches s).note _
    exact ih (whole.reaches (failed.trans (broken.synchronize_reaches 0)).advance)

/-- All tokens of a lexer are as they are read from a text. -/
theorem State.whole_ofLexer (lexer : Lexer) : (State.ofLexer lexer).Whole :=
  lexer.whole_of_mem_tokens

/-- Every program that comes of parsing is coherent. -/
theorem Parsed.coherent_ofString (source : String) :
    (ofString source).program.Coherent Denotes := by
  have rules := Parser.upholds_coherent.statement (Parser.sane_expression maxNesting)
  exact coherentStatements_iff.2 (State.gives_statements rules (State.whole_ofLexer _))

end MonkeyLang
