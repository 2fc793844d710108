import MonkeyLang.Proofs.Order

/-!
# Every statement that is begun is accounted for

A parser writes down at which token it begins a statement, and whether it came to the end of it or
gave it up.  These notes balance: every statement that is begun comes to one end, as a statement of
its own or as a fault, and what is begun in between comes to its end in between (`Settled`).  The
statements of the program are those that were completed and did not get lost in a statement that was
given up.

A statement is begun at a token of the text, and never twice at the same one.  So the notes bound
the work: the faults and the statements of the program, those of all blocks included, are together
no more than the tokens of the text (`Parsed.settled_ofString`).

The notes of a run are taken together from those of its parts (`State.Settles.append`), where the
tokens at which statements were begun are tokens that are passed on the way.
-/

namespace MonkeyLang

/-! ### The statements of a tree -/

mutual

/-- The statements inside of an expression at all depths, in the order of the source.  Each one
comes before those inside of it. -/
def Expression.within : Expression → List Statement
  | .identifier _ | .integer _ _ | .boolean _ _ => []
  | .unary _ _ operand => operand.within
  | .binary _ left _ right => left.within ++ right.within
  | .conditional _ condition consequence alternative =>
    condition.within ++ (consequence.within ++ withinAlternative alternative)
  | .function _ _ body => body.within
  | .call _ callee arguments => callee.within ++ withinArguments arguments

/-- The statements inside of a block at all depths. -/
def Block.within : Block → List Statement
  | ⟨_, statements⟩ => withinStatements statements

/-- The statements inside of a statement at all depths, that statement itself left out. -/
def Statement.within : Statement → List Statement
  | .binding _ _ value => value.within
  | .result _ value => value.within
  | .expression _ value => value.within
  | .block body => body.within

/-- The statements inside of the second block of a choice at all depths. -/
def withinAlternative : Option Block → List Statement
  | none => []
  | some block => block.within

/-- The statements inside of the arguments of a call at all depths. -/
def withinArguments : List Expression → List Statement
  | [] => []
  | argument :: arguments => argument.within ++ withinArguments arguments

/-- The statements of a block or program at all depths. -/
def withinStatements : List Statement → List Statement
  | [] => []
  | statement :: statements => statement :: (statement.within ++ withinStatements statements)

end

/-- The statements of a program at all depths, in the order of the source.  Each one comes before
those inside of it. -/
def Program.within (program : Program) : List Statement := withinStatements program.statements

theorem withinArguments_eq (arguments : List Expression) :
    withinArguments arguments = arguments.flatMap Expression.within := by
  induction arguments with
  | nil => rfl
  | cons argument arguments ih => rw [withinArguments, ih, List.flatMap_cons]

/-! ### Notes that balance -/

/-- The token at which a statement was begun. -/
def Event.begun? : Event → Option Token
  | .began token => some token
  | .completed | .failed _ => none

/-- The tokens at which statements were begun, in the order in which that happened. -/
def begun (events : List Event) : List Token := events.filterMap Event.begun?

@[simp] theorem begun_append (first second : List Event) :
    begun (first ++ second) = begun first ++ begun second := List.filterMap_append

@[simp] theorem begun_cons_began (token : Token) (events : List Event) :
    begun (.began token :: events) = token :: begun events := rfl

@[simp] theorem begun_cons_completed (events : List Event) :
    begun (.completed :: events) = begun events := rfl

@[simp] theorem begun_cons_failed (fault : Fault) (events : List Event) :
    begun (.failed fault :: events) = begun events := rfl

@[simp] theorem Event.fault?_began (token : Token) : (Event.began token).fault? = none := rfl

@[simp] theorem Event.fault?_completed : Event.completed.fault? = none := rfl

@[simp] theorem Event.fault?_failed (fault : Fault) :
    (Event.failed fault).fault? = some fault := rfl

/-- Every statement that is begun in the events comes to one end there, and in between so do the
statements that are begun in between.  It is completed as a statement that has begun at its token
and holds what was completed in between, or it is given up for a fault, and then it takes along what
was completed in between.  The statements that are left are listed, each before those inside. -/
inductive Settled : List Event → List Statement → Prop
  | nil : Settled [] []
  | completed (statement : Statement) {inner rest : List Event} {later : List Statement} :
      Settled inner statement.within → Settled rest later →
      Settled (.began statement.token :: (inner ++ .completed :: rest))
        (statement :: (statement.within ++ later))
  | failed (token : Token) (fault : Fault) {inner rest : List Event} {lost later : List Statement} :
      Settled inner lost → Settled rest later →
      Settled (.began token :: (inner ++ .failed fault :: rest)) later

namespace Settled

variable {events first second : List Event} {kept later : List Statement}

theorem append (h₁ : Settled first kept) (h₂ : Settled second later) :
    Settled (first ++ second) (kept ++ later) := by
  induction h₁ with
  | nil => exact h₂
  | completed statement inner _ _ ih =>
    have whole := Settled.completed statement inner ih
    simpa using whole
  | failed token fault inner _ _ ih =>
    have whole := Settled.failed token fault inner ih
    simpa using whole

/-- What has failed and what is left were begun at different tokens. -/
theorem length_le (h : Settled events kept) :
    (events.filterMap Event.fault?).length + kept.length ≤ (begun events).length := by
  induction h with
  | nil => exact Nat.le_refl _
  | completed statement _ _ inside behind =>
    simp only [List.filterMap_cons, List.filterMap_append, Event.fault?_began,
      Event.fault?_completed, begun_cons_began, begun_append, begun_cons_completed,
      List.length_append, List.length_cons]
    omega
  | failed token fault _ _ inside behind =>
    -- what was completed inside is lost, but it was begun nonetheless
    simp only [List.filterMap_cons, List.filterMap_append, Event.fault?_began,
      Event.fault?_failed, begun_cons_began, begun_append, begun_cons_failed,
      List.length_append, List.length_cons]
    omega

/-- If nothing has failed, all that was begun is left. -/
theorem begun_eq (h : Settled events kept) (clean : events.filterMap Event.fault? = []) :
    begun events = kept.map Statement.token := by
  induction h with
  | nil => rfl
  | completed statement _ _ inside behind =>
    simp only [List.filterMap_cons, List.filterMap_append, Event.fault?_began,
      Event.fault?_completed, List.append_eq_nil_iff] at clean
    rw [begun_cons_began, begun_append, begun_cons_completed, inside clean.1, behind clean.2,
      List.map_cons, List.map_append]
  | failed token fault =>
    simp only [List.filterMap_cons, List.filterMap_append, Event.fault?_began,
      Event.fault?_failed, List.append_eq_nil_iff] at clean
    exact absurd clean.2 (List.cons_ne_nil _ _)

end Settled

/-! ### What is written down between two positions -/

namespace State

variable {s m t front : State} {kept later : List Statement}

/-- The events that are written down between the positions `s` and `t` are settled, and the given
statements are left.  All were begun at tokens that are passed between `front` and `t`. -/
def Settles (s front : State) (kept : List Statement) (t : State) : Prop :=
  ∃ added, t.history = s.history ++ added ∧ Settled added kept ∧ front.Passes (begun added) t

/-- Whoever moves on may pass any tokens behind the one under the reading head. -/
theorem passes_ahead (moved : s.Reaches t) : s.advance.Passes [] t := by
  obtain ⟨gone, split⟩ := moved.tokens_suffix
  cases gone with
  | nil => exact ⟨[], congrArg List.tail split.symm, List.nil_sublist _⟩
  | cons token gone =>
    have behind : s.tokens.tail = gone ++ t.tokens := (congrArg List.tail split).symm
    obtain ⟨used, rest⟩ := List.tail_suffix t.tokens
    refine ⟨gone ++ used, ?_, List.nil_sublist _⟩
    show s.tokens.tail = gone ++ used ++ t.tokens.tail
    rw [behind, List.append_assoc, rest]

/-- Nothing is written down. -/
theorem settles_nil (same : t.events = s.events) (passed : front.Passes [] t) :
    s.Settles front [] t :=
  ⟨[], by rw [history, history, same, List.append_nil], .nil, passed⟩

/-- A step of one token leaves no note. -/
theorem settles_step (s : State) : s.Settles s.advance [] s.advance :=
  settles_nil rfl (passes_nil (.refl s.advance))

theorem Settles.append (h₁ : s.Settles front kept m) (h₂ : m.Settles m.advance later t) :
    s.Settles front (kept ++ later) t := by
  obtain ⟨first, history₁, settled₁, passed₁⟩ := h₁
  obtain ⟨second, history₂, settled₂, passed₂⟩ := h₂
  refine ⟨first ++ second, by rw [history₂, history₁, List.append_assoc],
    settled₁.append settled₂, ?_⟩
  rw [begun_append]
  exact passed₁.append passed₂

theorem history_note (s : State) (event : Event) :
    (s.note event).history = s.history ++ [event] := List.reverse_cons

/-- A statement is begun, and whatever comes of what is inside of it, a last event settles it. -/
theorem Settles.close {last : Event} {left : List Statement}
    (notEnded : s.current.kind ≠ .endOfInput)
    (inside : (s.note (.began s.current)).Settles s.advance kept t)
    (ends : begun [last] = [])
    (settle : ∀ added, Settled added kept → Settled (.began s.current :: (added ++ [last])) left) :
    s.Settles s left (t.note last) := by
  obtain ⟨added, history, settled, passed⟩ := inside
  refine ⟨_, ?_, settle added settled, ?_⟩
  · rw [history_note, history, history_note, List.append_assoc, List.append_assoc]
    rfl
  · rw [begun_cons_began, begun_append, ends, List.append_nil]
    exact Passes.cons notEnded passed

@[simp] theorem events_synchronize (s : State) (depth : Nat) :
    (s.synchronize depth).events = s.events := by
  fun_induction synchronize depth s with
  | case1 => rfl
  | case2 _ _ ih => exact ih

/-- After a statement that was given up, what is skipped leaves no note. -/
theorem Settles.resume {depth : Nat} (h₁ : s.Settles s [] m)
    (h₂ : (m.synchronize depth).advance.Settles (m.synchronize depth).advance later t) :
    s.Settles s later t := by
  have skipped : m.Settles m.advance [] (m.synchronize depth) :=
    settles_nil (events_synchronize m depth) (passes_ahead (m.synchronize_reaches depth))
  exact (h₁.append skipped).append h₂

end State

namespace Parser

open State

variable {α β : Type} {s front : State} {good : α → List Statement → Prop}

/-- Whether it ends well or not, a run from the position `s` settles all that it begins between
`front` and where it stops.  If it ends well, the value is `good` for the statements left. -/
def Settles (parser : Parser α) (s front : State) (good : α → List Statement → Prop) : Prop :=
  ∃ kept, s.Settles front kept (parser.run s).2 ∧ ∀ v, (parser.run s).1 = .ok v → good v kept

/-- What is left of a sequence is what is left of its parts. -/
theorem settles_bind {first : Parser α} {second : α → Parser β} {good' : β → List Statement → Prop}
    (h₁ : first.Settles s front good)
    (h₂ : ∀ v m kept, good v kept →
      (second v).Settles m m.advance fun w later => good' w (kept ++ later)) :
    (first >>= second).Settles s front good' := by
  obtain ⟨kept, settled, well⟩ := h₁
  cases step : first.run s with
  | mk outcome m =>
    rw [step] at settled well
    cases outcome with
    | error fault =>
      refine ⟨kept, ?_, ?_⟩ <;> rw [run_bind_error second step]
      · exact settled
      · exact fun _ same => by cases same
    | ok v =>
      obtain ⟨later, settled', well'⟩ := h₂ v m kept (well v rfl)
      refine ⟨kept ++ later, ?_, ?_⟩ <;> rw [run_bind_ok second step]
      · exact settled.append settled'
      · exact well'

/-! ### Basic moves -/

/-- A parser that never writes anything down. -/
def Silent (parser : Parser α) : Prop := ∀ s, (parser.run s).2.events = s.events

theorem Silent.settles {parser : Parser α} (silent : parser.Silent)
    (h : ∀ v, (parser.run s).1 = .ok v → good v []) : parser.Settles s s.advance good :=
  ⟨[], settles_nil (silent s) (passes_ahead (parser.reaches s)), h⟩

/-- What is left behind a part that writes nothing down is all that is left. -/
theorem Silent.bind {first : Parser α} {second : α → Parser β} {good' : β → List Statement → Prop}
    (silent : first.Silent) (h : ∀ v m, (second v).Settles m m.advance good') :
    (first >>= second).Settles s s.advance good' := by
  have nothing : first.Settles s s.advance fun _ kept => kept = [] := silent.settles fun _ _ => rfl
  refine settles_bind nothing ?_
  rintro v m _ rfl
  exact h v m

theorem silent_look (view : State → α) : (look view).Silent := fun _ => rfl

theorem silent_current : current.Silent := silent_look _

theorem silent_peekIs (kind : Kind) : (peekIs kind).Silent := silent_look _

theorem silent_advance : advance.Silent := fun _ => rfl

theorem silent_expect (wanted : Kind) : (expect wanted).Silent := fun s => by
  rw [run_expect]
  split <;> rfl

theorem silent_skip (kind : Kind) : (skip kind).Silent := fun s => by
  rw [run_skip]
  split <;> rfl

theorem settles_pure {v : α} (h : good v []) : (pure v : Parser α).Settles s s.advance good :=
  Silent.settles (fun _ => rfl) fun w same => by
    obtain rfl : v = w := Except.ok.inj same
    exact h

theorem settles_fail (fault : Fault) : (fail fault : Parser α).Settles s s.advance good :=
  Silent.settles (fun _ => rfl) fun _ same => by cases same

/-- Behind a step of one token, that token counts as one that is passed. -/
theorem settles_advance {second : Parser α} (h : second.Settles s.advance s.advance good) :
    (advance >>= fun _ => second).Settles s s.advance good := h

theorem exists_of_map_eq_ok {f : α → β} {outcome : Except Fault α} {w : β}
    (h : outcome.map f = .ok w) : ∃ v, outcome = .ok v ∧ f v = w := by
  cases outcome with
  | error fault => cases h
  | ok v => exact ⟨v, rfl, Except.ok.inj h⟩

/-! ### Lists -/

variable {item : Parser α} {within : α → List Statement}

theorem settles_items (h : ∀ s, item.Settles s s.advance fun v kept => kept = within v)
    (s : State) :
    (items item).Settles s s.advance fun vs kept => kept = vs.flatMap within := by
  show ∃ kept, s.Settles s.advance kept (itemsFrom item s).2 ∧
    ∀ vs, (itemsFrom item s).1 = .ok vs → kept = vs.flatMap within
  fun_induction itemsFrom item s with
  | case1 s step fault failed =>
    obtain ⟨kept, settled, -⟩ := h s
    exact ⟨kept, settled, fun _ same => by cases same⟩
  | case2 s step first ok comma later ih =>
    obtain ⟨kept, settled, well⟩ := h s
    obtain ⟨others, settled', well'⟩ := ih
    have rest := (settles_step step.2).append settled'
    refine ⟨kept ++ ([] ++ others), settled.append rest, fun vs same => ?_⟩
    obtain ⟨values, ok', rfl⟩ := exists_of_map_eq_ok same
    rw [well first ok, well' values ok', List.flatMap_cons, List.nil_append]
  | case3 s step first ok last =>
    obtain ⟨kept, settled, well⟩ := h s
    refine ⟨kept, settled, fun vs same => ?_⟩
    obtain rfl := Except.ok.inj same
    rw [well first ok, List.flatMap_singleton]

theorem settles_listed (h : ∀ s, item.Settles s s.advance fun v kept => kept = within v)
    (s : State) :
    (listed item).Settles s s.advance fun vs kept => kept = vs.flatMap within := by
  refine (silent_peekIs _).bind fun empty _ => ?_
  split
  · exact silent_advance.bind fun _ _ => settles_pure rfl
  · refine settles_bind (settles_items h _) ?_
    rintro values m _ rfl
    exact (silent_expect _).bind fun _ _ => settles_pure (List.append_nil _)

/-! ### Statements and blocks -/

/-- Every run of a parser of expressions settles all that it begins, and what is left are the
statements inside of the expression. -/
def Accountable (expr : Precedence → Parser Expression) : Prop :=
  ∀ bound s, (expr bound).Settles s s.advance fun e kept => kept = e.within

variable {expr : Precedence → Parser Expression}

theorem settles_statementAt (h : Accountable expr) (token : Token) (s : State) :
    (statementAt expr token).Settles s s.advance fun v kept =>
      v.token = token ∧ kept = v.within := by
  -- an expression with a semicolon, whatever statement is made of it
  have ending {make : Expression → Statement} (first : ∀ e, (make e).token = token)
      (all : ∀ e, (make e).within = e.within) (s : State) :
      (do let value ← expr .lowest; skip .semicolon; pure (make value)).Settles s s.advance
        fun v kept => v.token = token ∧ kept = v.within := by
    refine settles_bind (h .lowest s) ?_
    rintro e m _ rfl
    exact (silent_skip _).bind fun _ _ =>
      settles_pure ⟨first e, by rw [all, List.append_nil]⟩
  unfold statementAt
  split
  · exact (silent_expect _).bind fun _ _ => (silent_expect _).bind fun _ _ =>
      silent_advance.bind fun _ _ => ending (fun _ => rfl) (fun _ => rfl) _
  · exact silent_advance.bind fun _ _ => ending (fun _ => rfl) (fun _ => rfl) _
  · exact ending (fun _ => rfl) (fun _ => rfl) _

/-- A statement that is read leaves itself and the statements inside of it. -/
theorem settles_statement_of_ok (h : Accountable expr) {v : Statement} {t : State}
    (notEnded : s.current.kind ≠ .endOfInput) (run : (statement expr).run s = (.ok v, t)) :
    s.Settles s (v :: v.within) t := by
  obtain ⟨m, read, rfl⟩ := (reads_statement expr).1 (reads_any_iff.2 run)
  obtain ⟨kept, inside, well⟩ := settles_statementAt h s.current (s.note (.began s.current))
  rw [read.1] at inside well
  obtain ⟨token, rfl⟩ := well v rfl
  refine inside.close notEnded rfl fun added settled => ?_
  have whole := Settled.completed v settled .nil
  rwa [List.append_nil, token] at whole

/-- A statement that is given up leaves nothing, as soon as its fault is written down. -/
theorem settles_statement_of_error (h : Accountable expr) {fault : Fault} {t : State}
    (notEnded : s.current.kind ≠ .endOfInput) (run : (statement expr).run s = (.error fault, t)) :
    s.Settles s [] (t.note (.failed fault)) := by
  obtain ⟨kept, inside, -⟩ := settles_statementAt h s.current (s.note (.began s.current))
  have stopped : ((statementAt expr s.current).run (s.note (.began s.current))).2 = t := by
    have run : (statementAt expr s.current >>= fun v => note .completed >>= fun _ => pure v).run
      (s.note (.began s.current)) = (.error fault, t) := run
    rw [run_bind] at run
    split at run
    · cases (Prod.mk.inj run).1
    · rename_i step
      rw [step]
      exact (Prod.mk.inj run).2
  rw [stopped] at inside
  exact inside.close notEnded rfl fun added settled => .failed s.current fault settled .nil

/-- All statements of a block are settled, and those that are broken leave nothing. -/
theorem settles_statements (h : Accountable expr) (depth : Nat) (s : State) :
    (statements expr depth).Settles s s fun vs kept => kept = withinStatements vs := by
  show ∃ kept, s.Settles s kept (statementsFrom expr depth s).2 ∧
    ∀ vs, (statementsFrom expr depth s).1 = .ok vs → kept = withinStatements vs
  fun_induction statementsFrom expr depth s with
  | case1 s =>
    refine ⟨[], settles_nil rfl (passes_nil (.refl s)), fun vs same => ?_⟩
    obtain rfl := Except.ok.inj same
    rfl
  | case2 s => exact ⟨[], settles_nil rfl (passes_nil (.refl s)), fun _ same => by cases same⟩
  | case3 s _ notEnded step first ok later ih =>
    obtain ⟨others, settled, well⟩ := ih
    have here := settles_statement_of_ok h notEnded (t := step.2) (Prod.ext ok rfl)
    refine ⟨first :: first.within ++ others, here.append settled, fun vs same => ?_⟩
    obtain ⟨values, ok', rfl⟩ := exists_of_map_eq_ok same
    rw [well values ok']
    rfl
  | case4 s _ notEnded step fault failed broken =>
    -- the statement has run into the closing brace
    refine ⟨[], settles_statement_of_error h notEnded (Prod.ext failed rfl), fun vs same => ?_⟩
    obtain rfl := Except.ok.inj same
    rfl
  | case5 s _ notEnded step fault failed broken _ ih =>
    obtain ⟨others, settled, well⟩ := ih
    have here := settles_statement_of_error h notEnded (Prod.ext failed rfl)
    exact ⟨others, here.resume settled, well⟩

theorem settles_block (h : Accountable expr) (s : State) :
    (block expr).Settles s s.advance fun b kept => kept = b.within := by
  refine silent_current.bind fun token m => (silent_look _).bind fun depth m => ?_
  refine settles_advance (settles_bind (settles_statements h depth m.advance) ?_)
  rintro body t _ rfl
  exact settles_pure (List.append_nil _)

/-! ### Operands -/

theorem settles_integer (token : Token) (s : State) :
    (integer token).Settles s s.advance fun e kept => kept = e.within := by
  unfold integer
  dsimp only
  split
  · exact settles_pure rfl
  · exact settles_fail _

theorem settles_unary (h : Accountable expr) (token : Token) (s : State) :
    (unary expr token).Settles s s.advance fun e kept => kept = e.within := by
  refine silent_advance.bind fun _ m => settles_bind (h _ m) ?_
  rintro operand t _ rfl
  exact settles_pure (List.append_nil _)

theorem settles_group (h : Accountable expr) (s : State) :
    (group expr).Settles s s.advance fun e kept => kept = e.within := by
  refine silent_advance.bind fun _ m => settles_bind (h _ m) ?_
  rintro inner t _ rfl
  exact (silent_expect _).bind fun _ _ => settles_pure (List.append_nil _)

theorem settles_conditional (h : Accountable expr) (token : Token) (s : State) :
    (conditional expr token).Settles s s.advance fun e kept => kept = e.within := by
  refine (silent_expect _).bind fun _ _ => silent_advance.bind fun _ m => ?_
  refine settles_bind (h _ m) ?_
  rintro condition m _ rfl
  refine (silent_expect _).bind fun _ _ => (silent_expect _).bind fun _ m => ?_
  refine settles_bind (settles_block h m) ?_
  rintro consequence m _ rfl
  refine (silent_peekIs _).bind fun second m => ?_
  split
  · refine silent_advance.bind fun _ _ => (silent_expect _).bind fun _ m => ?_
    refine settles_bind (settles_block h m) ?_
    rintro alternative m _ rfl
    refine settles_pure ?_
    rw [List.append_nil, Expression.within, withinAlternative]
  · refine settles_pure ?_
    rw [Expression.within, withinAlternative]

theorem settles_parameter (s : State) :
    parameter.Settles s s.advance fun _ kept => kept = [] :=
  (silent_expect _).bind fun _ _ => settles_pure rfl

theorem settles_function (h : Accountable expr) (token : Token) (s : State) :
    (function expr token).Settles s s.advance fun e kept => kept = e.within := by
  refine (silent_expect _).bind fun _ m => settles_bind (settles_listed settles_parameter m) ?_
  rintro names m _ rfl
  refine (silent_expect _).bind fun _ m => settles_bind (settles_block h m) ?_
  rintro body m _ rfl
  refine settles_pure ?_
  rw [List.append_nil, Expression.within, List.flatMap_eq_nil_iff.2 fun _ _ => rfl, List.nil_append]

theorem settles_operand (h : Accountable expr) (s : State) :
    (operand expr).Settles s s.advance fun e kept => kept = e.within := by
  refine silent_current.bind fun token m => ?_
  split
  case h_1 => exact settles_pure rfl
  case h_2 => exact settles_integer token m
  case h_3 => exact settles_pure rfl
  case h_4 => exact settles_pure rfl
  case h_5 => exact settles_unary h token m
  case h_6 => exact settles_unary h token m
  case h_7 => exact settles_group h m
  case h_8 => exact settles_conditional h token m
  case h_9 => exact settles_function h token m
  case h_10 => exact settles_fail _

/-! ### Operators -/

theorem settles_argument (h : Accountable expr) (s : State) :
    (argument expr).Settles s s.advance fun e kept => kept = e.within :=
  silent_advance.bind fun _ m => h _ m

/-- An operation leaves what is inside of the operand on its left and what it leaves itself. -/
theorem settles_operation (h : Accountable expr) (left : Expression) (s : State) :
    (operation expr left).Settles s s.advance fun e kept => left.within ++ kept = e.within := by
  refine silent_current.bind fun token m => ?_
  split
  · refine settles_bind (settles_listed (settles_argument h) m) ?_
    rintro arguments m _ rfl
    refine settles_pure ?_
    rw [List.append_nil, Expression.within, withinArguments_eq]
  · refine silent_advance.bind fun _ m => settles_bind (h _ m) ?_
    rintro right m _ rfl
    refine settles_pure ?_
    rw [List.append_nil, Expression.within]

theorem settles_fold (h : Accountable expr) (bound : Precedence) (left : Expression) (s : State) :
    (fold expr bound left).Settles s s.advance fun e kept => left.within ++ kept = e.within := by
  show ∃ kept, s.Settles s.advance kept (foldFrom expr bound left s).2 ∧
    ∀ e, (foldFrom expr bound left s).1 = .ok e → left.within ++ kept = e.within
  fun_induction foldFrom expr bound left s with
  | case1 left s tighter step whole ok ih =>
    obtain ⟨kept, settled, well⟩ := settles_operation h left s.advance
    obtain ⟨others, settled', well'⟩ := ih
    have here := (settles_step s).append settled
    refine ⟨[] ++ kept ++ others, here.append settled', fun e same => ?_⟩
    rw [List.nil_append, ← List.append_assoc, well whole ok, well' e same]
  | case2 left s tighter step fault failed =>
    obtain ⟨kept, settled, -⟩ := settles_operation h left s.advance
    exact ⟨[] ++ kept, (settles_step s).append settled, fun _ same => by cases same⟩
  | case3 left s =>
    refine ⟨[], settles_nil rfl (passes_ahead (.refl s)), fun e same => ?_⟩
    obtain rfl := Except.ok.inj same
    exact List.append_nil _

theorem settles_operators (h : Accountable expr) (bound : Precedence) (s : State) :
    (operators expr bound).Settles s s.advance fun e kept => kept = e.within := by
  refine settles_bind (settles_operand h s) ?_
  rintro left m _ rfl
  obtain ⟨kept, settled, well⟩ := settles_fold h bound left m
  exact ⟨kept, settled, well⟩

theorem accountable_expressionWithin (levels : Nat) : Accountable (expressionWithin levels) := by
  induction levels with
  | zero => exact fun bound s => Silent.settles (fun _ => rfl) fun _ same => by cases same
  | succ levels ih =>
    intro bound s
    -- the number of open expressions is none of the matters that are noted
    obtain ⟨kept, settled, well⟩ := settles_operators ih bound { s with nesting := s.nesting + 1 }
    exact ⟨kept, settled, well⟩

theorem accountable_expression (limit : Nat) : Accountable (expression limit) :=
  fun bound s => accountable_expressionWithin (limit - s.nesting) bound s

end Parser

/-! ### Whole programs -/

namespace State

/-- All statements of a text are settled, and those of the program are left. -/
theorem settles_statements (limit : Nat) (s : State) :
    s.Settles s (withinStatements (s.statements limit).1) (s.statements limit).2 := by
  have settle := Parser.accountable_expression limit
  fun_induction State.statements limit s with
  | case1 s => exact settles_nil rfl (passes_nil (.refl s))
  | case2 s notEnded step first ok later ih =>
    have here := Parser.settles_statement_of_ok settle notEnded (t := step.2) (Prod.ext ok rfl)
    exact here.append ih
  | case3 s notEnded step fault failed broken ih =>
    have here := Parser.settles_statement_of_error settle notEnded (Prod.ext failed rfl)
    exact here.resume ih

/-- The statements of a text go on up to the end of input. -/
theorem statements_ended (limit : Nat) (s : State) :
    (s.statements limit).2.current.kind = .endOfInput := by
  fun_induction State.statements limit s with
  | case1 s ended => exact ended
  | case2 _ _ _ _ _ _ ih => exact ih
  | case3 _ _ _ _ _ _ ih => exact ih

end State

/-- **Parsing a text comes to an end and accounts for all it does.**  Statements are begun at tokens
of the text, one behind the other.  Each of them is completed as one statement or given up for one
fault (`Settled`), and those that are left are the statements of the program at all depths.  So the
faults and the statements are together no more than the tokens; and if there is no fault, statements
were begun at the tokens of the statements of the program and nowhere else.  At the end the parser
stands on the end of input with no expression open, and if it is started once more it finds the
empty program and changes nothing. -/
theorem Parsed.settled_ofString (source : String) :
    (begun (ofString source).history).Sublist (Lexer.ofString source).tokens ∧
      (∀ token ∈ begun (ofString source).history, token.kind ≠ .endOfInput) ∧
      (begun (ofString source).history).Pairwise
        (fun first second => first.location < second.location) ∧
      Settled (ofString source).history (ofString source).program.within ∧
      (ofString source).faults.length + (ofString source).program.within.length ≤
        (Lexer.ofString source).tokens.length ∧
      ((ofString source).faults = [] →
        begun (ofString source).history = (ofString source).program.within.map Statement.token) ∧
      ∃ final, (State.ofLexer (.ofString source)).program maxNesting =
          ((ofString source).program, final) ∧
        final.history = (ofString source).history ∧ final.current.kind = .endOfInput ∧
        final.nesting = 0 ∧ final.program maxNesting = (⟨[]⟩, final) := by
  obtain ⟨added, history, settled, passed⟩ :=
    (State.ofLexer (.ofString source)).settles_statements maxNesting
  obtain rfl : (ofString source).history = added := history
  have among := passed.sublist
  have moved := State.statements_reaches maxNesting (.ofLexer (.ofString source))
  have ended := State.statements_ended maxNesting (.ofLexer (.ofString source))
  refine ⟨among, fun token member => ?_, ?_, settled, ?_, settled.begun_eq, _, rfl, rfl, ended,
    moved.nesting_eq, ?_⟩
  · exact (Lexer.ofString source).kind_ne_of_mem_tokens token (among.subset member)
  · exact (Lexer.ofString source).tokens_pairwise.sublist among
  · exact Nat.le_trans settled.length_le among.length_le
  · rw [State.program, State.statements_of_end ended]

end MonkeyLang
