import MonkeyLang.Proofs.Climbing

/-!
# Allowing more levels

The number of expressions that may be open inside of one another only matters where it is exceeded:
as long as a run finds no fault that says that there are too many, a run that may open more of them
does the same (`State.statementsBy_of_shallow`).  It does not matter either how many expressions are
said to be open already.

Both runs are coupled until the first one finds that there are too many (`climbing`).
-/

namespace MonkeyLang

/-- The number of expressions that are open plays no part for parsers that agree anyway. -/
theorem agree_nested {p q : Parser Expression} (h : climbing.Agree p q) :
    climbing.Agree (Parser.nested p) (Parser.nested q) := by
  intro s t near _
  have meets : climbing.Meets (Coupling.Firm climbing.SameExpression)
      (p.run { s with nesting := s.nesting + 1 }) (q.run { t with nesting := t.nesting + 1 }) :=
    h near trivial
  exact meets.moved (f := State.close) (g := State.close) (fun near => near) (fun lost => lost)
    fun _ _ _ read => read

/-- With more levels the same is read, until there are too few of them. -/
theorem agree_expressionWithin {levels levels' : Nat} (more : levels ≤ levels')
    (bound : Precedence) :
    climbing.Agree (Parser.expressionWithin levels bound)
      (Parser.expressionWithin levels' bound) := by
  induction levels generalizing levels' bound with
  | zero => exact fun s t _ _ => .doomed ⟨s.nesting, s.current, rfl⟩
  | succ levels ih =>
    obtain ⟨levels', rfl⟩ := Nat.exists_eq_add_one_of_ne_zero (Nat.ne_zero_of_lt more)
    have inner := ih (Nat.le_of_succ_le_succ more)
    exact agree_nested
      (Coupling.agree_operators inner (roams_climbing.agree_block (inner .lowest)) bound)

namespace State

/-- Where no expression is open, the limit is the number of levels that are left. -/
theorem statements_eq_within (limit : Nat) {s : State} (top : s.nesting = 0) :
    s.statements limit = s.statementsBy (Parser.expressionWithin limit) := by
  induction length : s.tokens.length using Nat.strongRecOn generalizing s with
  | ind n ih =>
    by_cases ended : s.current.kind = .endOfInput
    · rw [statements_of_end ended, statementsBy_of_end ended]
    have positive := List.length_pos_iff.2 (s.tokens_ne_nil_of_current ended)
    have moved := (Parser.statement (Parser.expressionWithin limit)).reaches s
    cases step : (Parser.statement (Parser.expressionWithin limit)).run s with
    | mk outcome m =>
      have step' := (Parser.run_statement_expression top).trans step
      have shorter := Parser.length_le_of_run step
      have moved : s.Reaches m := by rwa [step] at moved
      cases outcome with
      | ok w =>
        have fewer := m.length_advance
        rw [statements_of_ok ended step', statementsBy_of_ok ended step,
          ih _ (by omega) (moved.advance.nesting_eq.trans top) rfl]
      | error fault =>
        have fewer := m.length_resume 0 fault
        have resumed := (moved.note (.failed fault)).trans (synchronize_reaches _ 0)
        rw [statements_of_error ended step', statementsBy_of_error ended step,
          ih _ (by omega) (resumed.advance.nesting_eq.trans top) rfl]

/-- If no fault says that too many expressions are open, then a run with more levels gives the same
statements, and the same happens in it. -/
theorem statementsBy_of_shallow {levels levels' : Nat} (more : levels ≤ levels') {s t : State}
    (near : Unnested s t)
    (shallow : ∀ fault ∈ (s.statementsBy (Parser.expressionWithin levels)).2.faults,
      ¬fault.IsTooDeep) :
    (t.statementsBy (Parser.expressionWithin levels')).1 =
        (s.statementsBy (Parser.expressionWithin levels)).1 ∧
      (t.statementsBy (Parser.expressionWithin levels')).2.events =
        (s.statementsBy (Parser.expressionWithin levels)).2.events := by
  have ended := roams_climbing.statementsBy (Parser.expressionWithin levels)
    (Parser.expressionWithin levels') (agree_expressionWithin more .lowest) near trivial
  obtain ⟨near, same⟩ | ⟨fault, found, deep⟩ := ended
  · have same : statementViews .full _ = statementViews .full _ := same
    rw [statementViews_full, statementViews_full] at same
    exact ⟨same.symm, near.events.symm⟩
  · exact absurd deep (shallow fault found)

end State

/-- If no fault says that too many expressions are open, then with a higher limit nothing
changes. -/
theorem Parsed.ofTokens_of_shallow {limit limit' : Nat} (more : limit ≤ limit')
    {tokens : List Token} {finish : Location}
    (shallow : ∀ fault ∈ (ofTokens limit tokens finish).faults, ¬fault.IsTooDeep) :
    ofTokens limit' tokens finish = ofTokens limit tokens finish := by
  have start : (State.ofTokens tokens finish).nesting = 0 := rfl
  have shallow : ∀ fault ∈ ((State.ofTokens tokens finish).statements limit).2.faults,
      ¬fault.IsTooDeep := shallow
  rw [State.statements_eq_within limit start] at shallow
  obtain ⟨trees, events⟩ := State.statementsBy_of_shallow more (t := State.ofTokens tokens finish)
    rfl shallow
  rw [← State.statements_eq_within limit start, ← State.statements_eq_within limit' start]
    at trees events
  show Parsed.mk ⟨(State.statements limit' _).1⟩ (List.reverse (State.statements limit' _).2.events)
    = Parsed.mk ⟨(State.statements limit _).1⟩ (List.reverse (State.statements limit _).2.events)
  rw [trees, events]

end MonkeyLang
