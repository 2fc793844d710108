import Mathlib.Data.Fintype.EquivFin
import MonkeyLang.Proofs.Accounting
import MonkeyLang.Proofs.Coupling

/-!
# Where faults come from

A fault is found at a token of the text, the end of input included, and what its message says is
true of that token: it is of another kind than the one demanded, or it begins no expression, or it
is an integer literal that is too large.  Only the fault that too many expressions are open is not
about a token by itself (`Parsed.founded_ofString`).

`parser.Finds s fault` says that the parser, started at the position `s`, ends with the fault or
writes it down on the way.  All parsers are built over a parser of expressions that they know
nothing about.  Whether such a parser calls it at some position shows in what becomes of a fault
there: if the parser of expressions failed at this call, with whichever fault, then the fault would
be found (`Calls`).  Where there is no call the answer plays no part (`Truthful.calls_iff`).  So
what a parser finds is either found at a token ahead and true of it, or found by an expression that
the parser calls (`Truthful`).  One lemma for each parser says so.
-/

namespace MonkeyLang

/-! ### Places of tokens -/

namespace Lexer

variable {lexer : Lexer}

/-- A lexer stands at the end of input or before it. -/
theorem location_le_finish (lexer : Lexer) : lexer.location ≤ lexer.finish :=
  Location.le_after _ _

/-- Every token stands before the end of input. -/
theorem location_lt_finish (lexer : Lexer) :
    ∀ token ∈ lexer.tokens, token.location < lexer.finish := by
  fun_induction Lexer.tokens lexer with
  | case1 => simp
  | case2 lexer step notEnded ih =>
    have finish : step.2.finish = lexer.finish := lexer.finish_nextToken
    rw [finish] at ih
    intro token member
    rcases List.mem_cons.1 member with rfl | member
    · exact Location.lt_of_lt_of_le (nextToken_location notEnded).2
        (finish ▸ step.2.location_le_finish)
    · exact ih token member

/-- The tokens stand in order, and the end of input comes last. -/
theorem tokenize_pairwise (lexer : Lexer) :
    lexer.tokenize.Pairwise fun first second => first.location < second.location := by
  refine List.pairwise_append.2 ⟨lexer.tokens_pairwise, List.pairwise_singleton _ _, ?_⟩
  intro token member other last
  obtain rfl := List.mem_singleton.1 last
  exact lexer.location_lt_finish token member

end Lexer

/-- In a sequence of tokens in order, just one stands at the place of a token. -/
theorem filter_location_of_pairwise {tokens : List Token} {token : Token}
    (order : tokens.Pairwise fun first second => first.location < second.location)
    (member : token ∈ tokens) :
    tokens.filter (fun other => other.location = token.location) = [token] := by
  obtain ⟨before, behind, rfl⟩ := List.append_of_mem member
  obtain ⟨apart, later⟩ := location_ne_of_pairwise order
  have none_before : before.filter (fun other => other.location = token.location) = [] :=
    List.filter_eq_nil_iff.2 fun other among => by simpa using apart other among
  have none_behind : behind.filter (fun other => other.location = token.location) = [] := by
    refine List.filter_eq_nil_iff.2 fun other among same => ?_
    have lt := later other among
    rw [of_decide_eq_true same] at lt
    exact Location.lt_irrefl _ lt
  rw [List.filter_append, List.filter_cons_of_pos (by simp), none_before, none_behind,
    List.nil_append]

namespace State

variable {s t : State}

/-- The tokens from the current one on, closed by the end of input. -/
def ahead (s : State) : List Token := s.tokens ++ [.endOfInput s.finish]

theorem current_mem (s : State) : s.current ∈ s.ahead := by
  rw [current, ahead]
  cases s.tokens <;> simp

theorem peek_mem (s : State) : s.peek ∈ s.ahead := by
  rw [peek, ahead]
  rcases s.tokens with _ | ⟨_, _ | ⟨_, _⟩⟩ <;> simp

/-- Whoever moves on sees nothing new. -/
theorem Reaches.ahead_subset (h : Reaches s t) : t.ahead ⊆ s.ahead := by
  obtain ⟨gone, split⟩ := h.tokens_suffix
  rw [ahead, ahead, h.finish_eq, ← split, List.append_assoc]
  exact List.subset_append_right _ _

/-- What is skipped after a broken statement holds no fault of its own. -/
theorem faults_resume (s : State) (depth : Nat) : (s.synchronize depth).advance.faults = s.faults :=
  congrArg (fun events : List Event => events.reverse.filterMap Event.fault?)
    (events_synchronize s depth)

end State

/-! ### What a fault says -/

/-- The kinds of token that have to follow somewhere. -/
def Kind.Demanded : Kind → Prop
  | identifier | assign | leftParen | rightParen | leftBrace | rightBrace => True
  | _ => False

/-- What a fault says is true of the token at which it was found.  That too many expressions are
open is not said of a token but of the way there. -/
def Fault.Honest : Fault → Prop
  | unexpected wanted found =>
    wanted.Demanded ∧ found.kind ≠ wanted ∧ (wanted = .rightBrace → found.kind = .endOfInput)
  | noOperand found => ¬found.kind.Starts
  | tooLarge literal =>
    literal.kind = .integer ∧ maxInteger < numeralValue literal.literal.toList
  | tooDeep _ _ => False

/-- There are faults without end. -/
instance : Infinite Fault :=
  .of_injective (fun levels => .tooDeep levels (.endOfInput ⟨1, 1⟩)) fun _ _ same =>
    (Fault.tooDeep.inj same).1

/-! ### What a run finds -/

namespace State

variable {s m t : State} {fault other : Fault}

/-- The fault is written down between two positions. -/
def Records (s t : State) (fault : Fault) : Prop :=
  ∃ found, t.faults = s.faults ++ found ∧ fault ∈ found

theorem not_records_of_eq (h : t.faults = s.faults) : ¬s.Records t fault := by
  rintro ⟨found, faults, member⟩
  obtain rfl : found = [] := List.self_eq_append_right.1 (h.symm.trans faults)
  cases member

theorem records_note_failed_iff : s.Records (s.note (.failed other)) fault ↔ fault = other := by
  simp [Records]

/-- What is written down on a way is written down on one of its two halves. -/
theorem records_trans_iff (before : s.Reaches m) (behind : m.Reaches t) :
    s.Records t fault ↔ s.Records m fault ∨ m.Records t fault := by
  obtain ⟨first, h₁⟩ := before.faults_le
  obtain ⟨second, h₂⟩ := behind.faults_le
  simp [Records, ← h₂, ← h₁]

end State

namespace Parser

open State

variable {α β : Type} {s m t : State} {fault other : Fault}

/-- The parser ends with the fault or writes it down on the way. -/
def Finds (parser : Parser α) (s : State) (fault : Fault) : Prop :=
  (parser.run s).1 = .error fault ∨ s.Records (parser.run s).2 fault

theorem reaches_of_run {parser : Parser α} {outcome : Except Fault α}
    (run : parser.run s = (outcome, t)) : s.Reaches t := by
  have moved := parser.reaches s
  rwa [run] at moved

/-- A run that answers and writes no fault down finds none. -/
theorem not_finds_of_run {parser : Parser α} {v : α} (run : parser.run s = (.ok v, t))
    (clean : t.faults = s.faults) : ¬parser.Finds s fault := by
  rw [Finds, run]
  rintro (failed | written)
  · cases failed
  · exact not_records_of_eq clean written

theorem finds_fail_iff : (fail other : Parser α).Finds s fault ↔ fault = other := by
  rw [Finds, run_fail]
  constructor
  · rintro (failed | written)
    · exact (Except.error.inj failed).symm
    · exact absurd written (not_records_of_eq rfl)
  · rintro rfl
    exact .inl rfl

theorem finds_bind_iff {first : Parser α} {second : α → Parser β} :
    (first >>= second).Finds s fault ↔
      first.Finds s fault ∨ ∃ v m, first.run s = (.ok v, m) ∧ (second v).Finds m fault := by
  cases step : first.run s with
  | mk outcome m =>
    cases outcome with
    | ok v =>
      rw [Finds, Finds, run_bind_ok second step, step,
        records_trans_iff (reaches_of_run step) ((second v).reaches m)]
      simp [Finds, or_left_comm]
    | error failed =>
      rw [Finds, Finds, run_bind_error second step, step]
      simp

/-- Writes a fault down at which the parser gives up, and goes on. -/
def attempt (parser : Parser α) : Parser (Except Fault α) where
  run s :=
    match parser.run s with
    | (.ok v, m) => (.ok (.ok v), m)
    | (.error fault, m) => (.ok (.error fault), m.note (.failed fault))
  reaches s := by
    have moved := parser.reaches s
    split
    · rename_i step
      rwa [step] at moved
    · rename_i step
      rw [step] at moved
      exact moved.note _

theorem run_attempt_ok {parser : Parser α} {v : α} (run : parser.run s = (.ok v, m)) :
    (attempt parser).run s = (.ok (.ok v), m) := by
  simp only [attempt, run]

theorem run_attempt_error {parser : Parser α} (run : parser.run s = (.error fault, m)) :
    (attempt parser).run s = (.ok (.error fault), m.note (.failed fault)) := by
  simp only [attempt, run]

/-- What is found is written down, if the last fault is written down as well. -/
theorem finds_iff_records {parser : Parser α} :
    parser.Finds s fault ↔ s.Records ((attempt parser).run s).2 fault := by
  cases step : parser.run s with
  | mk outcome m =>
    cases outcome with
    | ok v => simp [Finds, step, run_attempt_ok step]
    | error failed =>
      rw [Finds, step, run_attempt_error step,
        records_trans_iff (reaches_of_run step) ((Reaches.refl m).note _), records_note_failed_iff,
        or_comm]
      simp [eq_comm]

theorem finds_attempt_iff {parser : Parser α} :
    (attempt parser).Finds s fault ↔ parser.Finds s fault := by
  refine Iff.trans ?_ finds_iff_records.symm
  rw [Finds]
  cases step : parser.run s with
  | mk outcome m =>
    cases outcome with
    | ok v => simp [run_attempt_ok step]
    | error failed => simp [run_attempt_error step]

/-- No run finds all faults. -/
theorem exists_not_finds (parser : Parser α) (s : State) : ∃ fault, ¬parser.Finds s fault := by
  obtain ⟨found, faults⟩ := ((attempt parser).reaches s).faults_le
  obtain ⟨fault, unknown⟩ := Infinite.exists_notMem_finset found.toFinset
  refine ⟨fault, fun finds => ?_⟩
  obtain ⟨found', faults', member⟩ := finds_iff_records.1 finds
  rw [← faults] at faults'
  rw [← List.append_cancel_left faults', ← List.mem_toFinset] at member
  exact unknown member

/-! ### Calls -/

/-- The parser of expressions, with another answer if it is called for an expression with this bound
at this position. -/
def answering (bound : Precedence) (m : State) (answer : Parser Expression)
    (expr : Precedence → Parser Expression) (bound' : Precedence) : Parser Expression where
  run s := if bound' = bound ∧ s = m then answer.run s else (expr bound').run s
  reaches s := by
    split
    · exact answer.reaches s
    · exact (expr bound').reaches s

variable {expr : Precedence → Parser Expression} {bound bound' : Precedence}

theorem run_answering_same (answer : Parser Expression) :
    (answering bound m answer expr bound).run m = answer.run m :=
  if_pos ⟨rfl, rfl⟩

theorem run_answering_other (answer : Parser Expression) (other : ¬(bound' = bound ∧ s = m)) :
    (answering bound m answer expr bound').run s = (expr bound').run s :=
  if_neg other

/-- Started at the position `s`, the parser calls the parser of expressions at `m`: if this call
ended with a fault, with whichever, then the parser would find it. -/
def Calls (parser : (Precedence → Parser Expression) → Parser α)
    (expr : Precedence → Parser Expression) (s : State) (bound : Precedence) (m : State) : Prop :=
  ∀ fault, (parser (answering bound m (fail fault) expr)).Finds s fault

/-- What the parser finds at the position is found at a token ahead and true of it, or found by an
expression that it calls. -/
structure Truthful (expr : Precedence → Parser Expression)
    (parser : (Precedence → Parser Expression) → Parser α) (s : State) : Prop where
  /-- Where there is no call the answer plays no part. -/
  called (bound : Precedence) (m : State) : s.Reaches m ∧ Calls parser expr s bound m ∨
    ∀ answer, (parser (answering bound m answer expr)).run s = (parser expr).run s
  /-- A fault has its reason in the parser itself or comes from a call. -/
  founded (fault : Fault) : (parser expr).Finds s fault → fault.token ∈ s.ahead ∧ fault.Honest ∨
    ∃ bound m, Calls parser expr s bound m ∧ (expr bound).Finds m fault

variable {first : (Precedence → Parser Expression) → Parser α}
  {second : α → (Precedence → Parser Expression) → Parser β}
  {parser : (Precedence → Parser Expression) → Parser α}

/-- The answer to a call plays a part: a run finds only so many faults. -/
theorem Calls.exists_answer (calls : Calls parser expr s bound m) :
    ∃ answer, (parser (answering bound m answer expr)).run s ≠ (parser expr).run s := by
  obtain ⟨fault, unknown⟩ := exists_not_finds (parser expr) s
  refine ⟨fail fault, fun same => unknown ?_⟩
  have finds := calls fault
  rwa [Finds, same] at finds

/-- There is a call just where the answer plays a part. -/
theorem Truthful.calls_iff (h : Truthful expr parser s) :
    Calls parser expr s bound m ↔
      ∃ answer, (parser (answering bound m answer expr)).run s ≠ (parser expr).run s := by
  refine ⟨Calls.exists_answer, fun ⟨answer, other⟩ => ?_⟩
  obtain ⟨-, calls⟩ | same := h.called bound m
  · exact calls
  · exact absurd (same answer) other

/-- A call is made at a position ahead. -/
theorem Truthful.reaches_of_calls (h : Truthful expr parser s)
    (calls : Calls parser expr s bound m) : s.Reaches m := by
  obtain ⟨answer, other⟩ := calls.exists_answer
  obtain ⟨moved, -⟩ | same := h.called bound m
  · exact moved
  · exact absurd (same answer) other

theorem Truthful.congr {parser' : (Precedence → Parser Expression) → Parser α}
    (same : ∀ expr, parser expr = parser' expr) (h : Truthful expr parser' s) :
    Truthful expr parser s := by
  rwa [funext same]

/-- Who calls no expression finds only faults of its own. -/
theorem truthful_of_honest {parser : Parser α}
    (h : ∀ fault, parser.Finds s fault → fault.token ∈ s.ahead ∧ fault.Honest) :
    Truthful expr (fun _ => parser) s where
  called _ _ := .inr fun _ => rfl
  founded fault found := .inl (h fault found)

/-- What an expression finds is found by an expression. -/
theorem truthful_expr (bound : Precedence) : Truthful expr (fun expr => expr bound) s := by
  have calls : Calls (fun expr => expr bound) expr s bound s := fun fault =>
    .inl (congrArg Prod.fst (run_answering_same (fail fault)))
  refine ⟨fun bound' m => ?_, fun fault found => .inr ⟨bound, s, calls, found⟩⟩
  by_cases here : bound = bound' ∧ s = m
  · obtain ⟨rfl, rfl⟩ := here
    exact .inl ⟨.refl s, calls⟩
  · exact .inr fun answer => run_answering_other answer here

/-! ### Sequencing -/

/-- What the first part of a sequence calls, the sequence calls. -/
theorem Calls.bind (calls : Calls first expr s bound m) :
    Calls (fun expr => first expr >>= fun v => second v expr) expr s bound m :=
  fun fault => finds_bind_iff.2 (.inl (calls fault))

/-- And what the second part calls where the first part has stopped. -/
theorem Truthful.calls_bind (h : Truthful expr first s) {v : α}
    (step : (first expr).run s = (.ok v, t)) (calls : Calls (second v) expr t bound m) :
    Calls (fun expr => first expr >>= fun v => second v expr) expr s bound m := by
  obtain ⟨-, calls'⟩ | same := h.called bound m
  · exact calls'.bind
  · -- the answer plays no part in the first, so the second is started where it was
    exact fun fault => finds_bind_iff.2 (.inr ⟨v, t, (same _).trans step, calls fault⟩)

theorem truthful_bind (h₁ : Truthful expr first s)
    (h₂ : ∀ v t, (first expr).run s = (.ok v, t) → Truthful expr (second v) t) :
    Truthful expr (fun expr => first expr >>= fun v => second v expr) s where
  called bound m := by
    obtain ⟨moved, calls⟩ | same := h₁.called bound m
    · exact .inl ⟨moved, calls.bind⟩
    -- otherwise the first part ends as it does, whatever the answer
    cases step : (first expr).run s with
    | mk outcome t =>
      cases outcome with
      | error fault =>
        refine .inr fun answer => ?_
        rw [run_bind_error _ step, run_bind_error _ ((same answer).trans step)]
      | ok v =>
        obtain ⟨moved, calls⟩ | same' := (h₂ v t step).called bound m
        · exact .inl ⟨(reaches_of_run step).trans moved, h₁.calls_bind step calls⟩
        · refine .inr fun answer => ?_
          rw [run_bind_ok _ step, run_bind_ok _ ((same answer).trans step), same' answer]
  founded fault found := by
    obtain found | ⟨v, t, step, found⟩ := finds_bind_iff.1 found
    · obtain honest | ⟨bound, m, calls, found⟩ := h₁.founded fault found
      · exact .inl honest
      · exact .inr ⟨bound, m, calls.bind, found⟩
    · obtain ⟨member, honest⟩ | ⟨bound, m, calls, found⟩ := (h₂ v t step).founded fault found
      · exact .inl ⟨(reaches_of_run step).ahead_subset member, honest⟩
      · exact .inr ⟨bound, m, h₁.calls_bind step calls, found⟩

/-- A parser that answers and writes no fault down, with another one behind it. -/
theorem truthful_after {parser : Parser α} {v : α} (run : parser.run s = (.ok v, t))
    (clean : t.faults = s.faults) (h : Truthful expr (second v) t) :
    Truthful expr (fun expr => parser >>= fun v => second v expr) s := by
  refine truthful_bind (truthful_of_honest fun _ found => absurd found ?_) fun w m step => ?_
  · exact not_finds_of_run run clean
  · obtain ⟨rfl, rfl⟩ : v = w ∧ t = m := by simpa [run] using step
    exact h

theorem truthful_pure (v : α) : Truthful expr (fun _ => pure v) s :=
  truthful_of_honest fun _ found => absurd found (not_finds_of_run (run_pure v s) rfl)

theorem truthful_look {view : State → α} (h : Truthful expr (second (view s)) s) :
    Truthful expr (fun expr => look view >>= fun v => second v expr) s :=
  truthful_after (run_look view s) rfl h

theorem truthful_advance {second : Unit → (Precedence → Parser Expression) → Parser β}
    (h : Truthful expr (second ()) s.advance) :
    Truthful expr (fun expr => advance >>= fun v => second v expr) s :=
  truthful_after (run_advance s) (faults_advance s) h

theorem truthful_skip {kind : Kind} {second : Unit → (Precedence → Parser Expression) → Parser β}
    (h : ∀ t, Truthful expr (second ()) t) :
    Truthful expr (fun expr => skip kind >>= fun v => second v expr) s :=
  truthful_after (run_skip kind s) (by split <;> rfl) (h _)

/-- What was demanded is not what was found. -/
theorem truthful_expect {wanted : Kind}
    {second : Token → (Precedence → Parser Expression) → Parser β} (demanded : wanted.Demanded)
    (notBrace : wanted ≠ .rightBrace) (h : ∀ v t, Truthful expr (second v) t) :
    Truthful expr (fun expr => expect wanted >>= fun v => second v expr) s := by
  refine truthful_bind (truthful_of_honest fun fault found => ?_) fun v t _ => h v t
  by_cases same : s.peek.kind = wanted
  · have run : (expect wanted).run s = (.ok s.peek, s.advance) := if_pos same
    exact absurd found (not_finds_of_run run (faults_advance s))
  · have run : (expect wanted).run s = (fail (.unexpected wanted s.peek)).run s := if_neg same
    rw [Finds, run] at found
    obtain rfl := finds_fail_iff.1 found
    exact ⟨s.peek_mem, demanded, same, fun closing => absurd closing notBrace⟩

/-- A fault at the token under the reading head. -/
theorem truthful_fail (here : fault.token = s.current) (honest : fault.Honest) :
    Truthful expr (fun _ => (fail fault : Parser α)) s := by
  refine truthful_of_honest fun other found => ?_
  obtain rfl := finds_fail_iff.1 found
  exact ⟨here ▸ s.current_mem, honest⟩

/-- One of two parsers. -/
theorem truthful_ite {condition : Prop} [Decidable condition]
    {yes no : (Precedence → Parser Expression) → Parser α}
    (h₁ : condition → Truthful expr yes s) (h₂ : ¬condition → Truthful expr no s) :
    Truthful expr (fun expr => if condition then yes expr else no expr) s := by
  by_cases holds : condition
  · simpa only [if_pos holds] using h₁ holds
  · simpa only [if_neg holds] using h₂ holds

/-! ### Lists -/

variable {item : (Precedence → Parser Expression) → Parser α}

theorem truthful_items (h : ∀ s, Truthful expr item s) :
    Truthful expr (fun expr => items (item expr)) s := by
  induction length : s.tokens.length using Nat.strongRecOn generalizing s with
  | ind n ih =>
    refine .congr (fun expr => items_eq (item expr)) ?_
    refine truthful_bind (h s) fun first m step => truthful_look ?_
    refine truthful_ite (fun comma => truthful_advance ?_) fun _ => truthful_pure _
    have shorter : m.advance.tokens.length < n := by
      have moved := length_le_of_run step
      have two := m.two_le_length_of_peek (by rw [of_decide_eq_true comma]; decide)
      rw [State.length_advance]
      omega
    exact truthful_bind (ih _ shorter rfl) fun _ _ _ => truthful_pure _

theorem truthful_listed (h : ∀ s, Truthful expr item s) :
    Truthful expr (fun expr => listed (item expr)) s :=
  truthful_look <| truthful_ite (fun _ => truthful_advance (truthful_pure _)) fun _ =>
    truthful_bind (truthful_items h) fun _ _ _ =>
      truthful_expect trivial (by decide) fun _ _ => truthful_pure _

/-! ### Statements and blocks -/

/-- An expression, perhaps with a semicolon, of which a statement is made. -/
theorem truthful_ending (make : Expression → Statement) :
    Truthful expr
      (fun expr => do let value ← expr .lowest; skip .semicolon; pure (make value)) s :=
  truthful_bind (truthful_expr _) fun _ _ _ => truthful_skip fun _ => truthful_pure _

theorem truthful_statementAt (token : Token) :
    Truthful expr (fun expr => statementAt expr token) s := by
  unfold statementAt
  cases token.kind
  case letWord =>
    exact truthful_expect trivial (by decide) fun _ _ =>
      truthful_expect trivial (by decide) fun _ _ => truthful_advance (truthful_ending _)
  case returnWord => exact truthful_advance (truthful_ending _)
  all_goals exact truthful_ending _

theorem truthful_statement : Truthful expr statement s :=
  truthful_look <| truthful_after (run_note _ _) (faults_note_began _ _) <|
    truthful_bind (truthful_statementAt _) fun _ _ _ =>
      truthful_after (run_note _ _) (faults_note_completed _) (truthful_pure _)

theorem truthful_attempt (h : Truthful expr parser s) :
    Truthful expr (fun expr => attempt (parser expr)) s where
  called bound m := by
    obtain ⟨moved, calls⟩ | same := h.called bound m
    · exact .inl ⟨moved, fun fault => finds_attempt_iff.2 (calls fault)⟩
    · refine .inr fun answer => ?_
      simp only [attempt, same answer]
  founded fault found := by
    obtain honest | ⟨bound, m, calls, found⟩ := h.founded fault (finds_attempt_iff.1 found)
    · exact .inl honest
    · exact .inr ⟨bound, m, fun fault => finds_attempt_iff.2 (calls fault), found⟩

/-- Goes on behind a statement that is broken inside of `depth` braces. -/
def resume (depth : Nat) : Parser Unit :=
  ⟨fun s => (.ok (), (s.synchronize depth).advance), fun s => (s.synchronize_reaches depth).advance⟩

theorem run_resume (depth : Nat) (s : State) :
    (resume depth).run s = (.ok (), (s.synchronize depth).advance) := rfl

/-- Who moves on from a statement leaves fewer tokens than there were before it. -/
theorem length_advance_lt (notEnded : s.current.kind ≠ .endOfInput) (moved : s.Reaches m) :
    m.advance.tokens.length < s.tokens.length := by
  have positive := List.length_pos_iff.2 (s.tokens_ne_nil_of_current notEnded)
  have fewer := moved.tokens_suffix.length_le
  rw [State.length_advance]
  omega

/-- The loop over the statements of a block, taken apart. -/
theorem statements_eq (expr : Precedence → Parser Expression) (depth : Nat) :
    statements expr depth = (do
      let token ← current
      if token.kind = .rightBrace then pure []
      else if token.kind = .endOfInput then fail (.unexpected .rightBrace token)
      else
        match ← attempt (statement expr) with
        | .ok first =>
          advance
          let later ← statements expr depth
          pure (first :: later)
        | .error _ =>
          if ← look fun s => decide (s.current.kind = .rightBrace ∧ s.braceDepth < depth) then
            pure []
          else
            resume depth
            statements expr depth) := by
  ext1 s
  show statementsFrom expr depth s = _
  rw [run_bind_ok _ (run_current s)]
  by_cases closed : s.current.kind = .rightBrace
  · rw [statementsFrom_of_brace expr closed, if_pos closed, run_pure]
  by_cases ended : s.current.kind = .endOfInput
  · rw [statementsFrom_of_end expr ended, if_neg closed, if_pos ended, run_fail]
  rw [if_neg closed, if_neg ended]
  cases step : (statement expr).run s with
  | mk outcome m =>
    cases outcome with
    | ok first =>
      rw [statementsFrom_of_ok expr closed ended step, run_bind_ok _ (run_attempt_ok step),
        run_bind_ok _ (run_advance m)]
      cases rest : (statements expr depth).run m.advance with
      | mk outcome t =>
        have unfolded : statementsFrom expr depth m.advance = (outcome, t) := rest
        cases outcome with
        | ok later => rw [unfolded, run_bind_ok _ rest]; rfl
        | error fault => rw [unfolded, run_bind_error _ rest]; rfl
    | error fault =>
      rw [statementsFrom_of_error expr closed ended step, run_bind_ok _ (run_attempt_error step),
        run_bind_ok _ (run_look _ _), note_current, note_braceDepth]
      by_cases ends : m.current.kind = .rightBrace ∧ m.braceDepth < depth
      · rw [if_pos ends, if_pos (decide_eq_true ends), run_pure]
      · rw [if_neg ends, if_neg (mt of_decide_eq_true ends), run_bind_ok _ (run_resume depth _)]
        rfl

section
variable {loop giveUp : (Precedence → Parser Expression) → Parser (List Statement)}

/-- Behind a statement the loop goes on, whether it was read or given up. -/
theorem truthful_loop (notEnded : s.current.kind ≠ .endOfInput)
    (again : ∀ t, t.tokens.length < s.tokens.length → Truthful expr loop t)
    (givenUp : ∀ m, s.Reaches m → Truthful expr giveUp m) :
    Truthful expr (fun expr => do
      match ← attempt (statement expr) with
      | .ok first =>
        advance
        let later ← loop expr
        pure (first :: later)
      | .error _ => giveUp expr) s := by
  refine truthful_bind (truthful_attempt truthful_statement) fun outcome m step => ?_
  have moved := reaches_of_run step
  cases outcome with
  | ok first =>
    have onward := again m.advance (length_advance_lt notEnded moved)
    exact truthful_advance (truthful_bind onward fun _ _ _ => truthful_pure _)
  | error fault => exact givenUp m moved

theorem truthful_resume {depth : Nat} (notEnded : s.current.kind ≠ .endOfInput)
    (moved : s.Reaches m)
    (again : ∀ t, t.tokens.length < s.tokens.length → Truthful expr loop t) :
    Truthful expr (fun expr => do resume depth; loop expr) m := by
  have onward := length_advance_lt notEnded (moved.trans (m.synchronize_reaches depth))
  exact truthful_after (run_resume depth m) (faults_resume m depth) (again _ onward)

end

theorem truthful_statements (depth : Nat) :
    Truthful expr (fun expr => statements expr depth) s := by
  induction length : s.tokens.length using Nat.strongRecOn generalizing s with
  | ind n ih =>
    have again (t : State) (fewer : t.tokens.length < s.tokens.length) :
        Truthful expr (fun expr => statements expr depth) t := ih _ (length ▸ fewer) rfl
    refine .congr (fun expr => statements_eq expr depth) (truthful_look ?_)
    refine truthful_ite (fun _ => truthful_pure _) fun _ => truthful_ite (fun ended => ?_) ?_
    · -- the closing brace is missing at the end of input
      exact truthful_fail rfl ⟨trivial, by rw [ended]; decide, fun _ => ended⟩
    · intro notEnded
      refine truthful_loop notEnded again fun m moved => truthful_look ?_
      exact truthful_ite (fun _ => truthful_pure _) fun _ => truthful_resume notEnded moved again

theorem truthful_block : Truthful expr block s :=
  truthful_look <| truthful_look <| truthful_advance <|
    truthful_bind (truthful_statements _) fun _ _ _ => truthful_pure _

/-! ### Operands -/

theorem truthful_unary (token : Token) : Truthful expr (fun expr => unary expr token) s :=
  truthful_advance <| truthful_bind (truthful_expr _) fun _ _ _ => truthful_pure _

theorem truthful_group : Truthful expr group s :=
  truthful_advance <| truthful_bind (truthful_expr _) fun _ _ _ =>
    truthful_expect trivial (by decide) fun _ _ => truthful_pure _

/-- A block that has to follow, and what comes behind it. -/
theorem truthful_body {second : Block → (Precedence → Parser Expression) → Parser β}
    (h : ∀ b t, Truthful expr (second b) t) :
    Truthful expr (fun expr => do let _ ← expect .leftBrace; let b ← block expr; second b expr) s :=
  truthful_expect trivial (by decide) fun _ _ => truthful_bind truthful_block fun b t _ => h b t

theorem truthful_conditional (token : Token) :
    Truthful expr (fun expr => conditional expr token) s :=
  truthful_expect trivial (by decide) fun _ _ => truthful_advance <|
    truthful_bind (truthful_expr _) fun _ _ _ =>
      truthful_expect trivial (by decide) fun _ _ => truthful_body fun _ _ =>
        truthful_look <| truthful_ite
          (fun _ => truthful_advance <| truthful_body fun _ _ => truthful_pure _)
          fun _ => truthful_pure _

theorem truthful_parameter : Truthful expr (fun _ => parameter) s :=
  truthful_expect trivial (by decide) fun _ _ => truthful_pure _

theorem truthful_function (token : Token) : Truthful expr (fun expr => function expr token) s :=
  truthful_expect trivial (by decide) fun _ _ =>
    truthful_bind (truthful_listed fun _ => truthful_parameter) fun _ _ _ =>
      truthful_body fun _ _ => truthful_pure _

/-- A literal is given up only if it is too large. -/
theorem truthful_integer (kind : s.current.kind = .integer) :
    Truthful expr (fun _ => integer s.current) s := by
  unfold integer
  dsimp only
  split
  · exact truthful_pure _
  · rename_i large
    exact truthful_fail rfl ⟨kind, Nat.lt_of_not_le large⟩

theorem truthful_operand : Truthful expr operand s := by
  refine truthful_look ?_
  cases kind : s.current.kind
  case identifier => exact truthful_pure _
  case integer => exact truthful_integer kind
  case trueWord => exact truthful_pure _
  case falseWord => exact truthful_pure _
  case bang => exact truthful_unary _
  case minus => exact truthful_unary _
  case leftParen => exact truthful_group
  case ifWord => exact truthful_conditional _
  case functionWord => exact truthful_function _
  -- no other kind begins an expression
  all_goals
    refine truthful_fail rfl fun starts => ?_
    have starts : s.current.kind.Starts := starts
    rw [kind] at starts
    exact starts

/-! ### Operators -/

theorem truthful_argument : Truthful expr argument s := truthful_advance (truthful_expr _)

theorem truthful_operation (left : Expression) :
    Truthful expr (fun expr => operation expr left) s :=
  truthful_look <| truthful_ite
    (fun _ => truthful_bind (truthful_listed fun _ => truthful_argument) fun _ _ _ =>
      truthful_pure _)
    fun _ => truthful_advance <| truthful_bind (truthful_expr _) fun _ _ _ => truthful_pure _

theorem truthful_fold (bound : Precedence) (left : Expression) :
    Truthful expr (fun expr => fold expr bound left) s := by
  induction length : s.tokens.length using Nat.strongRecOn generalizing s left with
  | ind n ih =>
    refine .congr (fun expr => fold_eq expr bound left) (truthful_look ?_)
    refine truthful_ite (fun tighter => truthful_advance ?_) fun _ => truthful_pure _
    refine truthful_bind (truthful_operation left) fun whole m step => ih _ ?_ whole rfl
    have moved := length_le_of_run step
    have two := s.two_le_length_of_peek fun ended => by
      rw [ended] at tighter
      exact Nat.not_lt_zero _ (of_decide_eq_true tighter)
    rw [State.length_advance] at moved
    omega

/-- What an operand with its operators finds is its own or found by an expression inside. -/
theorem truthful_operators (bound : Precedence) :
    Truthful expr (fun expr => operators expr bound) s :=
  truthful_bind truthful_operand fun left _ _ => truthful_fold bound left

/-! ### The levels of nesting -/

/-- A fault that an expression finds is true of its token, or it says that too many expressions are
open: those that are open at the beginning and all that may be opened inside of one another. -/
theorem finds_expressionWithin {levels : Nat} {bound : Precedence}
    (found : (expressionWithin levels bound).Finds s fault) :
    fault.token ∈ s.ahead ∧
      (fault.Honest ∨ fault = .tooDeep (s.nesting + levels) fault.token) := by
  induction levels generalizing s bound with
  | zero =>
    have refused : (fail (.tooDeep s.nesting s.current) : Parser Expression).Finds s fault := found
    obtain rfl := finds_fail_iff.1 refused
    exact ⟨s.current_mem, .inr rfl⟩
  | succ levels ih =>
    have inside : (operators (expressionWithin levels) bound).Finds
      { s with nesting := s.nesting + 1 } fault := found
    have truthful : Truthful (expressionWithin levels) (fun expr => operators expr bound)
        { s with nesting := s.nesting + 1 } :=
      truthful_operators bound
    obtain ⟨member, honest⟩ | ⟨bound', m, calls, found⟩ := truthful.founded fault inside
    · exact ⟨member, .inl honest⟩
    · have moved := truthful.reaches_of_calls calls
      obtain ⟨member, honest⟩ := ih found
      have counted : m.nesting = s.nesting + 1 := moved.nesting_eq
      refine ⟨moved.ahead_subset member, ?_⟩
      rwa [counted, Nat.add_right_comm] at honest

/-! ### Whole programs -/

/-- The statements up to the end of input, whatever becomes of them. -/
def toEnd (expr : Precedence → Parser Expression) : Parser (List Statement) :=
  ⟨fun s => (.ok (s.statementsBy expr).1, (s.statementsBy expr).2), statementsBy_reaches expr⟩

/-- The loop over the statements of a program, taken apart. -/
theorem toEnd_eq (expr : Precedence → Parser Expression) :
    toEnd expr = (do
      let token ← current
      if token.kind = .endOfInput then pure []
      else
        match ← attempt (statement expr) with
        | .ok first =>
          advance
          let later ← toEnd expr
          pure (first :: later)
        | .error _ =>
          resume 0
          toEnd expr) := by
  ext1 s
  show (Except.ok (s.statementsBy expr).1, (s.statementsBy expr).2) = _
  rw [run_bind_ok _ (run_current s)]
  by_cases ended : s.current.kind = .endOfInput
  · rw [statementsBy_of_end ended, if_pos ended, run_pure]
  rw [if_neg ended]
  cases step : (statement expr).run s with
  | mk outcome m =>
    cases outcome with
    | ok first =>
      rw [statementsBy_of_ok ended step, run_bind_ok _ (run_attempt_ok step),
        run_bind_ok _ (run_advance m)]
      rfl
    | error fault =>
      rw [statementsBy_of_error ended step, run_bind_ok _ (run_attempt_error step),
        run_bind_ok _ (run_resume 0 _)]
      rfl

theorem truthful_toEnd : Truthful expr toEnd s := by
  induction length : s.tokens.length using Nat.strongRecOn generalizing s with
  | ind n ih =>
    have again (t : State) (fewer : t.tokens.length < s.tokens.length) : Truthful expr toEnd t :=
      ih _ (length ▸ fewer) rfl
    refine .congr toEnd_eq (truthful_look ?_)
    refine truthful_ite (fun _ => truthful_pure _) fun notEnded => ?_
    exact truthful_loop notEnded again fun m moved => truthful_resume notEnded moved again

end Parser

/-- The faults of some tokens are those that the loop over the statements finds. -/
theorem Parsed.finds_toEnd {limit : Nat} {tokens : List Token} {finish : Location} {fault : Fault}
    (member : fault ∈ (ofTokens limit tokens finish).faults) :
    (Parser.toEnd (Parser.expression limit)).Finds (.ofTokens tokens finish) fault := by
  refine .inr ⟨_, ?_, member⟩
  show ((State.ofTokens tokens finish).statementsBy (Parser.expression limit)).2.faults = _
  rw [← State.statements_eq_statementsBy]
  rfl

/-- All faults are found at tokens and true of them, but for those that say how many expressions may
be open. -/
theorem Parsed.founded_ofTokens {limit : Nat} {tokens : List Token} {finish : Location}
    {fault : Fault} (member : fault ∈ (ofTokens limit tokens finish).faults) :
    fault.token ∈ (State.ofTokens tokens finish).ahead ∧
      (fault.Honest ∨ fault = .tooDeep limit fault.token) := by
  have truthful : Parser.Truthful (Parser.expression limit) Parser.toEnd (.ofTokens tokens finish) :=
    Parser.truthful_toEnd
  obtain ⟨member, honest⟩ | ⟨bound, m, calls, found⟩ := truthful.founded fault (finds_toEnd member)
  · exact ⟨member, .inl honest⟩
  · have moved := truthful.reaches_of_calls calls
    have top : m.nesting = 0 := moved.nesting_eq
    obtain ⟨member, honest⟩ := Parser.finds_expressionWithin found
    rw [top] at honest
    exact ⟨moved.ahead_subset member, by simpa using honest⟩

/-- **All faults of a text are found at tokens of the text** and are true of them, but for those
that say how many expressions may be open. -/
theorem Parsed.founded_ofString (source : String) :
    ∀ fault ∈ (ofString source).faults, fault.token ∈ (Lexer.ofString source).tokenize ∧
      (fault.Honest ∨ fault = .tooDeep maxNesting fault.token) :=
  fun _ member => founded_ofTokens member

end MonkeyLang
