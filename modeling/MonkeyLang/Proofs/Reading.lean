import MonkeyLang.Parser.Program

/-!
# What a parser reads

`parser.Reads tolerated s v t` says that a parser that is started at the position `s` reads the
value `v` and stops at `t`, and that it writes down no fault on the way but tolerated ones.  With no
fault tolerated this is a clean run.

For every parser of the language one lemma says what it reads, in terms of what its parts read:
`reads_unary`, `reads_conditional` and so on.  Read from left to right they take a run apart, from
right to left they put one together, so that nothing else has to look into the definitions of the
parsers.  The exception is a block, which may hide a fault: `reads_statements` holds of clean runs,
and `reads_statements_cons` puts a run together whatever is tolerated.
-/

namespace MonkeyLang

variable {tolerated : Fault → Prop}

/-! ### Faults between two positions -/

namespace State

variable {s m t : State}

/-- All faults written down between two positions are tolerated. -/
def Adds (tolerated : Fault → Prop) (s t : State) : Prop :=
  ∃ found, t.faults = s.faults ++ found ∧ ∀ fault ∈ found, tolerated fault

@[simp] theorem faults_advance (s : State) : s.advance.faults = s.faults := rfl

@[simp] theorem faults_note_began (s : State) (token : Token) :
    (s.note (.began token)).faults = s.faults := by
  simp [faults, history, note, Event.fault?]

@[simp] theorem faults_note_completed (s : State) : (s.note .completed).faults = s.faults := by
  simp [faults, history, note, Event.fault?]

@[simp] theorem faults_note_failed (s : State) (fault : Fault) :
    (s.note (.failed fault)).faults = s.faults ++ [fault] := by
  simp [faults, history, note, Event.fault?]

theorem Reaches.faults_le (h : Reaches s t) : s.faults <+: t.faults := by
  obtain ⟨added, h⟩ := h.events_suffix
  refine ⟨added.reverse.filterMap Event.fault?, ?_⟩
  simp [faults, history, ← h]

theorem Adds.of_eq (h : t.faults = s.faults) : Adds tolerated s t :=
  ⟨[], by simp [h], by simp⟩

theorem Adds.refl (s : State) : Adds tolerated s s := .of_eq rfl

theorem Adds.trans (h₁ : Adds tolerated s m) (h₂ : Adds tolerated m t) : Adds tolerated s t := by
  obtain ⟨first, h₁, tolerated₁⟩ := h₁
  obtain ⟨second, h₂, tolerated₂⟩ := h₂
  refine ⟨first ++ second, by rw [h₂, h₁, List.append_assoc], ?_⟩
  intro fault member
  rcases List.mem_append.1 member with member | member
  · exact tolerated₁ fault member
  · exact tolerated₂ fault member

/-- What is tolerated of a run is tolerated of its two halves. -/
theorem Adds.split (h : Adds tolerated s t) (before : Reaches s m) (behind : Reaches m t) :
    Adds tolerated s m ∧ Adds tolerated m t := by
  obtain ⟨found, h, all⟩ := h
  obtain ⟨first, h₁⟩ := before.faults_le
  obtain ⟨second, h₂⟩ := behind.faults_le
  have whole : first ++ second = found := by
    rw [← h₂, ← h₁, List.append_assoc] at h
    exact List.append_cancel_left h
  subst whole
  exact ⟨⟨first, h₁.symm, fun fault member => all fault (List.mem_append_left _ member)⟩,
    ⟨second, h₂.symm, fun fault member => all fault (List.mem_append_right _ member)⟩⟩

/-- In a clean run nothing is written down as a fault. -/
theorem adds_none_iff : Adds (fun _ => False) s t ↔ t.faults = s.faults := by
  constructor
  · rintro ⟨found, h, none⟩
    rw [h, List.eq_nil_iff_forall_not_mem.2 none, List.append_nil]
  · exact Adds.of_eq

/-- No clean run passes a position at which a fault has been written down. -/
theorem Adds.not_failed {fault : Fault} (h : Adds (fun _ => False) s t) (before : Reaches s m)
    (behind : Reaches (m.note (.failed fault)) t) : False := by
  have length₁ := before.faults_le.length_le
  have length₂ := behind.faults_le.length_le
  rw [adds_none_iff.1 h, faults_note_failed, List.length_append, List.length_singleton] at length₂
  omega

end State

/-! ### Runs that end well -/

namespace Parser

variable {α β : Type} {s m t : State}

/-- The parser reads the value `v` between the positions `s` and `t`, and all faults that it writes
down on the way are tolerated. -/
def Reads (tolerated : Fault → Prop) (parser : Parser α) (s : State) (v : α) (t : State) : Prop :=
  parser.run s = (.ok v, t) ∧ s.Adds tolerated t

theorem Reads.reaches {parser : Parser α} {v : α} (h : parser.Reads tolerated s v t) :
    s.Reaches t := by
  have moved := parser.reaches s
  rwa [h.1] at moved

/-- A value is read in sequence if both parts are read, one behind the other. -/
theorem reads_bind {first : Parser α} {second : α → Parser β} {w : β} :
    (first >>= second).Reads tolerated s w t ↔
      ∃ v m, first.Reads tolerated s v m ∧ (second v).Reads tolerated m w t := by
  constructor
  · rintro ⟨run, adds⟩
    rw [run_bind] at run
    cases h : first.run s with
    | mk outcome m =>
      rw [h] at run
      cases outcome with
      | error fault => exact absurd (congrArg Prod.fst run) (by simp)
      | ok v =>
        have before : s.Reaches m := by simpa [h] using first.reaches s
        have behind : m.Reaches t := by
          have moved := (second v).reaches m
          rwa [show (second v).run m = (.ok w, t) from run] at moved
        obtain ⟨adds₁, adds₂⟩ := adds.split before behind
        exact ⟨v, m, ⟨h, adds₁⟩, run, adds₂⟩
  · rintro ⟨v, m, ⟨run₁, adds₁⟩, run₂, adds₂⟩
    exact ⟨by rw [run_bind_ok second run₁, run₂], adds₁.trans adds₂⟩

/-- A value is computed from another one that is read. -/
theorem reads_map {parser : Parser α} {f : α → β} {w : β} :
    (f <$> parser).Reads tolerated s w t ↔ ∃ v, parser.Reads tolerated s v t ∧ f v = w := by
  rw [map_eq_pure_bind, reads_bind]
  constructor
  · rintro ⟨v, m, read, run, -⟩
    rw [run_pure, Prod.mk.injEq, Except.ok.injEq] at run
    exact ⟨v, run.2 ▸ read, run.1⟩
  · rintro ⟨v, read, rfl⟩
    exact ⟨v, t, read, rfl, .refl t⟩

/-! ### Basic moves -/

/-- A parser that always answers and finds nothing reads what it answers. -/
theorem reads_of_run {parser : Parser α} {value : α} {later : State} {v : α}
    (run : parser.run s = (.ok value, later)) (clean : later.faults = s.faults) :
    parser.Reads tolerated s v t ↔ value = v ∧ later = t := by
  rw [Reads, run, Prod.mk.injEq, Except.ok.injEq]
  constructor
  · exact fun h => h.1
  · rintro ⟨rfl, rfl⟩
    exact ⟨⟨rfl, rfl⟩, .of_eq clean⟩

@[simp] theorem reads_pure {value v : α} :
    (pure value : Parser α).Reads tolerated s v t ↔ value = v ∧ s = t :=
  reads_of_run rfl rfl

@[simp] theorem reads_look {view : State → α} {v : α} :
    (look view).Reads tolerated s v t ↔ view s = v ∧ s = t :=
  reads_of_run rfl rfl

@[simp] theorem reads_current {v : Token} :
    current.Reads tolerated s v t ↔ s.current = v ∧ s = t :=
  reads_of_run rfl rfl

@[simp] theorem reads_peekIs {kind : Kind} {v : Bool} :
    (peekIs kind).Reads tolerated s v t ↔ decide (s.peek.kind = kind) = v ∧ s = t :=
  reads_of_run rfl rfl

@[simp] theorem reads_advance {v : Unit} : advance.Reads tolerated s v t ↔ s.advance = t := by
  rw [reads_of_run (run_advance s) (State.faults_advance s)]
  simp

@[simp] theorem reads_note_began {token : Token} {v : Unit} :
    (note (.began token)).Reads tolerated s v t ↔ s.note (.began token) = t := by
  rw [reads_of_run (run_note _ s) (State.faults_note_began s token)]
  simp

@[simp] theorem reads_note_completed {v : Unit} :
    (note .completed).Reads tolerated s v t ↔ s.note .completed = t := by
  rw [reads_of_run (run_note _ s) (State.faults_note_completed s)]
  simp

@[simp] theorem reads_skip {kind : Kind} {v : Unit} :
    (skip kind).Reads tolerated s v t ↔
      (if s.peek.kind = kind then s.advance else s) = t := by
  rw [reads_of_run (run_skip kind s) (by split <;> rfl)]
  simp

@[simp] theorem reads_expect {wanted : Kind} {v : Token} :
    (expect wanted).Reads tolerated s v t ↔
      s.peek.kind = wanted ∧ s.peek = v ∧ s.advance = t := by
  by_cases h : s.peek.kind = wanted
  · rw [reads_of_run (by rw [run_expect, if_pos h]) (State.faults_advance s)]
    simp [h]
  · simp [Reads, run_expect, h]

@[simp] theorem reads_fail {fault : Fault} {v : α} :
    (fail fault : Parser α).Reads tolerated s v t ↔ False := by
  simp [Reads]

/-! ### Lists in parentheses -/

variable {item : Parser α}

theorem reads_items {vs : List α} :
    (items item).Reads tolerated s vs t ↔
      ∃ v m, item.Reads tolerated s v m ∧
        (m.peek.kind ≠ .comma ∧ [v] = vs ∧ m = t ∨
          m.peek.kind = .comma ∧
            ∃ later, (items item).Reads tolerated m.advance later t ∧ v :: later = vs) := by
  constructor
  · rintro ⟨run, adds⟩
    have unfolded : itemsFrom item s = (.ok vs, t) := run
    cases step : item.run s with
    | mk outcome m =>
      have before : s.Reaches m := by simpa [step] using item.reaches s
      cases outcome with
      | error fault =>
        rw [itemsFrom_of_error step] at unfolded
        exact absurd (congrArg Prod.fst unfolded) (by simp)
      | ok v =>
        by_cases comma : m.peek.kind = .comma
        · have behind := itemsFrom_reaches item m.advance
          rw [itemsFrom_of_comma step comma] at unfolded
          cases rest : itemsFrom item m.advance with
          | mk outcome later =>
            rw [rest] at unfolded behind
            cases outcome with
            | error fault => exact absurd (congrArg Prod.fst unfolded) (by simp [Except.map])
            | ok vs' =>
              obtain ⟨same, rfl⟩ := Prod.mk.inj unfolded
              obtain ⟨adds₁, adds₂⟩ :=
                adds.split before ((State.Reaches.refl m).advance.trans behind)
              exact ⟨v, m, ⟨step, adds₁⟩, .inr ⟨comma, vs', ⟨rest, adds₂⟩, Except.ok.inj same⟩⟩
        · rw [itemsFrom_of_last step comma] at unfolded
          obtain ⟨same, rfl⟩ := Prod.mk.inj unfolded
          exact ⟨v, m, ⟨step, adds⟩, .inl ⟨comma, Except.ok.inj same, rfl⟩⟩
  · rintro ⟨v, m, ⟨step, adds₁⟩, ⟨last, rfl, rfl⟩ | ⟨comma, later, ⟨rest, adds₂⟩, rfl⟩⟩
    · exact ⟨itemsFrom_of_last step last, adds₁⟩
    · have rest : itemsFrom item m.advance = (.ok later, t) := rest
      refine ⟨?_, adds₁.trans adds₂⟩
      show itemsFrom item s = _
      rw [itemsFrom_of_comma step comma, rest]
      rfl

theorem reads_listed {vs : List α} :
    (listed item).Reads tolerated s vs t ↔
      s.peek.kind = .rightParen ∧ [] = vs ∧ s.advance = t ∨
        s.peek.kind ≠ .rightParen ∧
          ∃ m, (items item).Reads tolerated s vs m ∧ m.peek.kind = .rightParen ∧
            m.advance = t := by
  by_cases h : s.peek.kind = .rightParen <;>
    simp [listed, reads_bind, reads_map, and_assoc, h, and_comm, and_left_comm]

/-! ### Nesting -/

theorem reads_nested {parser : Parser α} {v : α} :
    (nested parser).Reads tolerated s v t ↔
      ∃ m, parser.Reads tolerated { s with nesting := s.nesting + 1 } v m ∧
        { m with nesting := s.nesting } = t := by
  have counted := (parser.reaches { s with nesting := s.nesting + 1 }).nesting_eq
  constructor
  · rintro ⟨run, adds⟩
    rw [run_nested] at run
    cases step : parser.run { s with nesting := s.nesting + 1 } with
    | mk outcome m =>
      rw [step] at counted run
      obtain ⟨rfl, rfl⟩ := Prod.mk.inj run
      refine ⟨m, ⟨step, adds⟩, ?_⟩
      rw [show m.nesting = s.nesting + 1 from counted, Nat.add_sub_cancel]
  · rintro ⟨m, ⟨step, adds⟩, rfl⟩
    rw [step] at counted
    refine ⟨?_, adds⟩
    rw [run_nested, step, show m.nesting = s.nesting + 1 from counted, Nat.add_sub_cancel]

section
variable (expr : Precedence → Parser Expression) {token : Token} {e : Expression}

/-! ### Statements and blocks -/

theorem reads_statementAt_binding {v : Statement} (h : token.kind = .letWord) :
    (statementAt expr token).Reads tolerated s v t ↔
      s.peek.kind = .identifier ∧ s.advance.peek.kind = .assign ∧
        ∃ value m, (expr .lowest).Reads tolerated s.advance.advance.advance value m ∧
          (if m.peek.kind = .semicolon then m.advance else m) = t ∧
          .binding token ⟨s.peek, s.peek.literal⟩ value = v := by
  simp [statementAt, h, reads_bind, reads_map, and_assoc]

theorem reads_statementAt_result {v : Statement} (h : token.kind = .returnWord) :
    (statementAt expr token).Reads tolerated s v t ↔
      ∃ value m, (expr .lowest).Reads tolerated s.advance value m ∧
        (if m.peek.kind = .semicolon then m.advance else m) = t ∧ .result token value = v := by
  simp [statementAt, h, reads_bind, reads_map]

theorem reads_statementAt_expression {v : Statement} (h : token.kind ≠ .letWord)
    (h' : token.kind ≠ .returnWord) :
    (statementAt expr token).Reads tolerated s v t ↔
      ∃ value m, (expr .lowest).Reads tolerated s value m ∧
        (if m.peek.kind = .semicolon then m.advance else m) = t ∧
        .expression token value = v := by
  unfold statementAt
  split
  · exact absurd (by assumption) h
  · exact absurd (by assumption) h'
  · simp [reads_bind, reads_map]

theorem reads_statement {v : Statement} :
    (statement expr).Reads tolerated s v t ↔
      ∃ m, (statementAt expr s.current).Reads tolerated (s.note (.began s.current)) v m ∧
        m.note .completed = t := by
  simp only [statement, reads_bind, reads_current, reads_note_began, reads_note_completed,
    reads_pure, and_assoc, exists_and_left, exists_eq_left', exists_const]
  constructor
  · rintro ⟨v, m, read, rfl, rfl⟩
    exact ⟨m, read, rfl⟩
  · rintro ⟨m, read, rfl⟩
    exact ⟨v, m, read, rfl, rfl⟩

/-- A closing brace ends the statements of a block. -/
theorem reads_statements_nil {depth : Nat} (h : s.current.kind = .rightBrace) :
    (statements expr depth).Reads tolerated s [] s :=
  ⟨statementsFrom_of_brace expr h, .refl s⟩

theorem reads_statements_cons {depth : Nat} {v : Statement} {vs : List Statement}
    (notClosed : s.current.kind ≠ .rightBrace) (notEnded : s.current.kind ≠ .endOfInput)
    (first : (statement expr).Reads tolerated s v m)
    (later : (statements expr depth).Reads tolerated m.advance vs t) :
    (statements expr depth).Reads tolerated s (v :: vs) t := by
  obtain ⟨step, adds₁⟩ := first
  obtain ⟨rest, adds₂⟩ := later
  have rest : statementsFrom expr depth m.advance = (.ok vs, t) := rest
  refine ⟨?_, adds₁.trans adds₂⟩
  show statementsFrom expr depth s = _
  rw [statementsFrom_of_ok expr notClosed notEnded step, rest]
  rfl

/-- What a block reads in a clean run. -/
theorem reads_statements {depth : Nat} {vs : List Statement} :
    (statements expr depth).Reads (fun _ => False) s vs t ↔
      s.current.kind = .rightBrace ∧ [] = vs ∧ s = t ∨
        s.current.kind ≠ .rightBrace ∧ s.current.kind ≠ .endOfInput ∧
          ∃ v m later, (statement expr).Reads (fun _ => False) s v m ∧
            (statements expr depth).Reads (fun _ => False) m.advance later t ∧
            v :: later = vs := by
  constructor
  · rintro ⟨run, adds⟩
    have unfolded : statementsFrom expr depth s = (.ok vs, t) := run
    by_cases closed : s.current.kind = .rightBrace
    · rw [statementsFrom_of_brace expr closed] at unfolded
      obtain ⟨same, rfl⟩ := Prod.mk.inj unfolded
      exact .inl ⟨closed, Except.ok.inj same, rfl⟩
    by_cases ended : s.current.kind = .endOfInput
    · rw [statementsFrom_of_end expr ended] at unfolded
      exact absurd (congrArg Prod.fst unfolded) (by simp)
    refine .inr ⟨closed, ended, ?_⟩
    cases step : (statement expr).run s with
    | mk outcome m =>
      have before : s.Reaches m := by simpa [step] using (statement expr).reaches s
      cases outcome with
      | ok v =>
        have behind := statementsFrom_reaches expr depth m.advance
        rw [statementsFrom_of_ok expr closed ended step] at unfolded
        cases rest : statementsFrom expr depth m.advance with
        | mk outcome later =>
          rw [rest] at unfolded behind
          cases outcome with
          | error fault => exact absurd (congrArg Prod.fst unfolded) (by simp [Except.map])
          | ok vs' =>
            obtain ⟨same, rfl⟩ := Prod.mk.inj unfolded
            obtain ⟨adds₁, adds₂⟩ := adds.split before ((State.Reaches.refl m).advance.trans behind)
            exact ⟨v, m, vs', ⟨step, adds₁⟩, ⟨rest, adds₂⟩, Except.ok.inj same⟩
      | error fault =>
        -- the fault has been written down, so the run is not clean
        have failed : (m.note (.failed fault)).Reaches t := by
          rw [statementsFrom_of_error expr closed ended step] at unfolded
          split at unfolded
          · obtain ⟨-, rfl⟩ := Prod.mk.inj unfolded
            exact .refl _
          · have behind := statementsFrom_reaches expr depth
              ((m.note (.failed fault)).synchronize depth).advance
            rw [unfolded] at behind
            exact ((m.note (.failed fault)).synchronize_reaches depth).advance.trans behind
        exact (adds.not_failed before failed).elim
  · rintro (⟨closed, rfl, rfl⟩ | ⟨closed, ended, v, m, later, first, rest, rfl⟩)
    · exact reads_statements_nil expr closed
    · exact reads_statements_cons expr closed ended first rest

theorem reads_block {b : Block} :
    (block expr).Reads tolerated s b t ↔
      ∃ body, (statements expr s.braceDepth).Reads tolerated s.advance body t ∧
        ⟨s.current, body⟩ = b := by
  simp [block, reads_bind, reads_map, and_assoc]

/-! ### Operands -/

theorem reads_integer :
    (integer token).Reads tolerated s e t ↔
      numeralValue token.literal.toList ≤ maxInteger ∧
        .integer token (numeralValue token.literal.toList) = e ∧ s = t := by
  by_cases h : numeralValue token.literal.toList ≤ maxInteger <;> simp [integer, h]

theorem reads_unary :
    (unary expr token).Reads tolerated s e t ↔
      ∃ operand, (expr .unary).Reads tolerated s.advance operand t ∧
        .unary token token.literal operand = e := by
  simp [unary, reads_bind, reads_map]

theorem reads_group :
    (group expr).Reads tolerated s e t ↔
      ∃ m, (expr .lowest).Reads tolerated s.advance e m ∧ m.peek.kind = .rightParen ∧
        m.advance = t := by
  simp [group, reads_bind, reads_map, and_comm, and_left_comm]

theorem reads_conditional :
    (conditional expr token).Reads tolerated s e t ↔
      s.peek.kind = .leftParen ∧
        ∃ condition m, (expr .lowest).Reads tolerated s.advance.advance condition m ∧
          m.peek.kind = .rightParen ∧ m.advance.peek.kind = .leftBrace ∧
          ∃ consequence n, (block expr).Reads tolerated m.advance.advance consequence n ∧
            (n.peek.kind ≠ .elseWord ∧ .conditional token condition consequence none = e ∧ n = t ∨
              n.peek.kind = .elseWord ∧ n.advance.peek.kind = .leftBrace ∧
                ∃ alternative, (block expr).Reads tolerated n.advance.advance alternative t ∧
                  .conditional token condition consequence (some alternative) = e) := by
  have choice (condition : Expression) (consequence : Block) (n : State) :
      Reads tolerated (if decide (n.peek.kind = .elseWord) = true then do
          advance
          let _ ← expect .leftBrace
          let alternative ← block expr
          pure (.conditional token condition consequence (some alternative))
        else pure (.conditional token condition consequence none)) n e t ↔
        n.peek.kind ≠ .elseWord ∧ .conditional token condition consequence none = e ∧ n = t ∨
          n.peek.kind = .elseWord ∧ n.advance.peek.kind = .leftBrace ∧
            ∃ alternative, (block expr).Reads tolerated n.advance.advance alternative t ∧
              .conditional token condition consequence (some alternative) = e := by
    by_cases h : n.peek.kind = .elseWord <;> simp [h, reads_bind, reads_map, and_assoc]
  simp only [conditional, reads_bind, reads_expect, reads_advance, reads_peekIs, and_assoc,
    exists_and_left, exists_eq_left', exists_const, choice]

theorem reads_parameter {v : Identifier} :
    parameter.Reads tolerated s v t ↔
      s.peek.kind = .identifier ∧ ⟨s.peek, s.peek.literal⟩ = v ∧ s.advance = t := by
  simp only [parameter, reads_bind, reads_expect, reads_pure, and_assoc, exists_and_left,
    exists_eq_left']

theorem reads_function :
    (function expr token).Reads tolerated s e t ↔
      s.peek.kind = .leftParen ∧
        ∃ parameters m, (listed parameter).Reads tolerated s.advance parameters m ∧
          m.peek.kind = .leftBrace ∧
          ∃ body, (block expr).Reads tolerated m.advance body t ∧
            .function token parameters body = e := by
  simp [function, reads_bind, reads_map, and_assoc]

/-- What an operand reads depends on the kind of its first token. -/
theorem reads_operand :
    (operand expr).Reads tolerated s e t ↔
      match s.current.kind with
      | .identifier => .identifier ⟨s.current, s.current.literal⟩ = e ∧ s = t
      | .integer => (integer s.current).Reads tolerated s e t
      | .trueWord => .boolean s.current true = e ∧ s = t
      | .falseWord => .boolean s.current false = e ∧ s = t
      | .bang | .minus => (unary expr s.current).Reads tolerated s e t
      | .leftParen => (group expr).Reads tolerated s e t
      | .ifWord => (conditional expr s.current).Reads tolerated s e t
      | .functionWord => (function expr s.current).Reads tolerated s e t
      | _ => False := by
  simp only [operand, reads_bind, reads_current, and_assoc, exists_and_left, exists_eq_left']
  cases s.current.kind <;> simp

/-! ### Operators -/

theorem reads_argument :
    (argument expr).Reads tolerated s e t ↔ (expr .lowest).Reads tolerated s.advance e t := by
  simp [argument, reads_bind]

theorem reads_operation {left : Expression} :
    (operation expr left).Reads tolerated s e t ↔
      (s.current.kind = .leftParen ∧
          ∃ arguments, (listed (argument expr)).Reads tolerated s arguments t ∧
            .call s.current left arguments = e) ∨
        s.current.kind ≠ .leftParen ∧
          ∃ right, (expr (.ofKind s.current.kind)).Reads tolerated s.advance right t ∧
            .binary s.current left s.current.literal right = e := by
  by_cases h : s.current.kind = .leftParen <;>
    simp [operation, reads_bind, reads_map, and_assoc, h]

theorem reads_fold {bound : Precedence} {left : Expression} :
    (fold expr bound left).Reads tolerated s e t ↔
      ¬bound < .ofKind s.peek.kind ∧ left = e ∧ s = t ∨
        bound < .ofKind s.peek.kind ∧
          ∃ whole m, (operation expr left).Reads tolerated s.advance whole m ∧
            (fold expr bound whole).Reads tolerated m e t := by
  by_cases tighter : bound < .ofKind s.peek.kind
  · constructor
    · rintro ⟨run, adds⟩
      have unfolded : foldFrom expr bound left s = (.ok e, t) := run
      cases step : (operation expr left).run s.advance with
      | mk outcome m =>
        have before : s.Reaches m := by
          have moved := (operation expr left).reaches s.advance
          rw [step] at moved
          exact (State.Reaches.refl s).advance.trans moved
        cases outcome with
        | error fault =>
          rw [foldFrom_of_error expr tighter step] at unfolded
          exact absurd (congrArg Prod.fst unfolded) (by simp)
        | ok whole =>
          have behind := foldFrom_reaches expr bound whole m
          rw [foldFrom_of_ok expr tighter step] at unfolded
          rw [unfolded] at behind
          obtain ⟨adds₁, adds₂⟩ := adds.split before behind
          exact .inr ⟨tighter, whole, m, ⟨step, adds₁⟩, unfolded, adds₂⟩
    · rintro (⟨weak, -⟩ | ⟨-, whole, m, ⟨step, adds₁⟩, run, adds₂⟩)
      · exact absurd tighter weak
      · refine ⟨?_, adds₁.trans adds₂⟩
        show foldFrom expr bound left s = _
        rw [foldFrom_of_ok expr tighter step]
        exact run
  · have stopped : (fold expr bound left).run s = (.ok left, s) := foldFrom_of_weak expr tighter
    rw [reads_of_run stopped rfl]
    simp [tighter]

theorem reads_operators {bound : Precedence} :
    (operators expr bound).Reads tolerated s e t ↔
      ∃ left m, (operand expr).Reads tolerated s left m ∧
        (fold expr bound left).Reads tolerated m e t := by
  simp [operators, reads_bind]

end

theorem not_reads_expressionWithin_zero {bound : Precedence} {e : Expression} :
    ¬(expressionWithin 0 bound).Reads tolerated s e t := by
  simp [expressionWithin, tooDeep, Reads]

theorem reads_expressionWithin {levels : Nat} {bound : Precedence} {e : Expression} :
    (expressionWithin (levels + 1) bound).Reads tolerated s e t ↔
      ∃ m, (operators (expressionWithin levels) bound).Reads tolerated
          { s with nesting := s.nesting + 1 } e m ∧
        { m with nesting := s.nesting } = t := by
  rw [expressionWithin, reads_nested]

/-! ### The knot at a given position -/

/-- Two sequences do the same if their parts do, wherever the second part may begin. -/
theorem run_bind_congr {first first' : Parser α} {second second' : α → Parser β} {s : State}
    (h₁ : first.run s = first'.run s)
    (h₂ : ∀ v m, s.Reaches m → (second v).run m = (second' v).run m) :
    (first >>= second).run s = (first' >>= second').run s := by
  have moved := first'.reaches s
  rw [run_bind, run_bind, h₁]
  cases h : first'.run s with
  | mk outcome m =>
    rw [h] at moved
    cases outcome with
    | ok v => exact h₂ v m moved
    | error fault => rfl

/-- A statement only depends on what the expressions do where as many of them are open as at its
beginning. -/
theorem statement_congr {p q : Precedence → Parser Expression} {s : State}
    (h : ∀ bound t, t.nesting = s.nesting → (p bound).run t = (q bound).run t) :
    (statement p).run s = (statement q).run s := by
  have same (bound : Precedence) {t : State} (moved : s.Reaches t) :
      (p bound).run t = (q bound).run t := h bound t moved.nesting_eq
  refine run_bind_congr rfl fun token s₁ r₁ => run_bind_congr rfl fun _ s₂ r₂ =>
    run_bind_congr ?_ fun _ _ _ => rfl
  have r₂ := r₁.trans r₂
  unfold statementAt
  split
  · refine run_bind_congr rfl fun _ s₃ r₃ => run_bind_congr rfl fun _ s₄ r₄ =>
      run_bind_congr rfl fun _ s₅ r₅ => ?_
    exact run_bind_congr (same _ (((r₂.trans r₃).trans r₄).trans r₅)) fun _ _ _ => rfl
  · refine run_bind_congr rfl fun _ s₃ r₃ => ?_
    exact run_bind_congr (same _ (r₂.trans r₃)) fun _ _ _ => rfl
  · exact run_bind_congr (same _ r₂) fun _ _ _ => rfl

/-- Where no expression is open, the limit is the number of levels that are left. -/
theorem run_statement_expression {limit : Nat} {s : State} (h : s.nesting = 0) :
    (statement (expression limit)).run s = (statement (expressionWithin limit)).run s := by
  apply statement_congr
  intro bound t same
  show (expressionWithin (limit - t.nesting) bound).run t = _
  rw [same, h, Nat.sub_zero]

end Parser

/-! ### Whole programs -/

namespace State

/-- From the position `s` the statements `vs` are read up to the end of input, at `t`. -/
def ReadsAll (tolerated : Fault → Prop) (limit : Nat) (s : State) (vs : List Statement)
    (t : State) : Prop :=
  s.statements limit = (vs, t) ∧ s.Adds tolerated t

theorem statements_reaches (limit : Nat) (s : State) : s.Reaches (s.statements limit).2 := by
  fun_induction statements limit s with
  | case1 s => exact .refl s
  | case2 s _ step first _ later ih =>
    exact ((Parser.statement (Parser.expression limit)).reaches s).advance.trans ih
  | case3 s _ step fault _ broken ih =>
    have failed : s.Reaches broken :=
      ((Parser.statement (Parser.expression limit)).reaches s).note _
    exact (failed.trans (broken.synchronize_reaches 0)).advance.trans ih

variable {limit : Nat} {s m t : State}

theorem readsAll_nil (h : s.current.kind = .endOfInput) : ReadsAll tolerated limit s [] s :=
  ⟨statements_of_end h, .refl s⟩

theorem readsAll_cons {v : Statement} {vs : List Statement} (top : s.nesting = 0)
    (notEnded : s.current.kind ≠ .endOfInput)
    (first : (Parser.statement (Parser.expressionWithin limit)).Reads tolerated s v m)
    (later : ReadsAll tolerated limit m.advance vs t) :
    ReadsAll tolerated limit s (v :: vs) t := by
  obtain ⟨step, adds₁⟩ := first
  obtain ⟨rest, adds₂⟩ := later
  rw [← Parser.run_statement_expression top] at step
  exact ⟨by rw [statements_of_ok notEnded step, rest], adds₁.trans adds₂⟩

/-- What is read in a clean run up to the end of input. -/
theorem readsAll_iff {vs : List Statement} (top : s.nesting = 0) :
    ReadsAll (fun _ => False) limit s vs t ↔
      s.current.kind = .endOfInput ∧ [] = vs ∧ s = t ∨
        s.current.kind ≠ .endOfInput ∧
          ∃ v m later,
            (Parser.statement (Parser.expressionWithin limit)).Reads (fun _ => False) s v m ∧
              ReadsAll (fun _ => False) limit m.advance later t ∧ v :: later = vs := by
  constructor
  · rintro ⟨run, adds⟩
    by_cases ended : s.current.kind = .endOfInput
    · rw [statements_of_end ended] at run
      obtain ⟨same, rfl⟩ := Prod.mk.inj run
      exact .inl ⟨ended, same, rfl⟩
    refine .inr ⟨ended, ?_⟩
    have moved := (Parser.statement (Parser.expression limit)).reaches s
    cases step : (Parser.statement (Parser.expression limit)).run s with
    | mk outcome m =>
      rw [step] at moved
      cases outcome with
      | ok v =>
        have behind := statements_reaches limit m.advance
        rw [statements_of_ok ended step] at run
        obtain ⟨rfl, rfl⟩ := Prod.mk.inj run
        obtain ⟨adds₁, adds₂⟩ := adds.split moved ((Reaches.refl m).advance.trans behind)
        rw [Parser.run_statement_expression top] at step
        exact ⟨v, m, _, ⟨step, adds₁⟩, ⟨rfl, adds₂⟩, rfl⟩
      | error fault =>
        have failed : (m.note (.failed fault)).Reaches t := by
          have behind := statements_reaches limit ((m.note (.failed fault)).synchronize 0).advance
          rw [statements_of_error ended step] at run
          rw [run] at behind
          exact ((m.note (.failed fault)).synchronize_reaches 0).advance.trans behind
        exact (adds.not_failed moved failed).elim
  · rintro (⟨ended, rfl, rfl⟩ | ⟨ended, v, m, later, first, rest, rfl⟩)
    · exact readsAll_nil ended
    · exact readsAll_cons top ended first rest

end State

end MonkeyLang
