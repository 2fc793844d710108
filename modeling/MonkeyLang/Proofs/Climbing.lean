import MonkeyLang.Proofs.Stratified

/-!
# Climbing reads the levels

A single loop that folds every operator that binds tighter than a bound reads the same expressions
as one chain for every level (`Parsed.stratified_eq_ofString`), whatever the text, as long as not
too many expressions are open.

The loop can be cut at every level in between (`fold_fold`): first the operators that bind tighter
than `q` are folded, and then those that bind tighter than a weaker bound `r`.  If there is just one
level of operators between both, then the second part is the chain of that level
(`climbs_level`).  So the levels are taken one by one, from the tightest, at which there are only
lists of arguments (`climbs_unary`), to the weakest.

The two runs differ in the number of open expressions.  They are coupled until the first one finds
that there are too many.
-/

namespace MonkeyLang

open Stratified

/-! ### Cutting the loop -/

/-- The operators that bind tighter come first. -/
theorem fold_fold (expr : Precedence → Parser Expression) {q r : Precedence} (weaker : r ≤ q)
    (left : Expression) :
    Parser.fold expr r left = (do
      let whole ← Parser.fold expr q left
      Parser.fold expr r whole) := by
  ext1 state
  induction length : state.tokens.length using Nat.strongRecOn generalizing state left with
  | ind n ih =>
    by_cases tighter : q < .ofKind state.peek.kind
    · have tighter' : r < .ofKind state.peek.kind := Nat.lt_of_le_of_lt weaker tighter
      have two := state.two_le_length_of_peek (Kind.solid_of_binds tighter).2
      show Parser.foldFrom expr r left state = _
      cases step : (Parser.operation expr left).run state.advance with
      | mk outcome later =>
        have shorter := Parser.length_le_of_run step
        rw [State.length_advance] at shorter
        cases outcome with
        | error fault =>
          rw [Parser.foldFrom_of_error expr tighter' step,
            Parser.run_bind_error _ (Parser.foldFrom_of_error expr tighter step)]
        | ok whole =>
          have step' : (Parser.fold expr q left).run state = (Parser.fold expr q whole).run later :=
            Parser.foldFrom_of_ok expr tighter step
          rw [Parser.foldFrom_of_ok expr tighter' step, Parser.run_bind, step']
          exact ih _ (by omega) whole later rfl
    · rw [Parser.run_bind_ok _ (Parser.foldFrom_of_weak expr tighter)]

/-! ### The kinds of the levels -/

/-- The kinds of operators at a level. -/
theorem mem_iff_ofKind (kind : Kind) :
    (kind ∈ [Kind.equal, .notEqual] ↔ .ofKind kind = Precedence.equality) ∧
      (kind ∈ [Kind.less, .greater] ↔ .ofKind kind = Precedence.comparison) ∧
      (kind ∈ [Kind.plus, .minus] ↔ .ofKind kind = Precedence.sum) ∧
      (kind ∈ [Kind.asterisk, .slash] ↔ .ofKind kind = Precedence.product) ∧
      (kind ∈ [Kind.leftParen] ↔ Precedence.product < .ofKind kind) := by
  cases kind <;> decide

/-- Between products and calls there are no operators that stand behind an operand. -/
theorem unary_lt_ofKind (kind : Kind) :
    Precedence.product < .ofKind kind ↔ Precedence.unary < .ofKind kind := by
  cases kind <;> decide

/-- A sign is not the beginning of a primary expression, and what else begins an operand is. -/
theorem run_operand (expr : Precedence → Parser Expression) (s : State) :
    (Parser.operand expr).run s =
      if s.current.kind ∈ [.bang, .minus] then (Parser.unary expr s.current).run s
      else (primary expr).run s := by
  rw [Parser.operand, primary, Parser.run_bind_ok _ (Parser.run_current s),
    Parser.run_bind_ok _ (Parser.run_current s)]
  cases kind : s.current.kind <;> simp

theorem run_operation_leftParen (expr : Precedence → Parser Expression) (left : Expression)
    {s : State} (h : s.current.kind = .leftParen) :
    (Parser.operation expr left).run s = (application expr left).run s := by
  rw [Parser.operation, Parser.run_bind_ok _ (Parser.run_current s), if_pos h]
  rfl

theorem run_operation_binary (expr : Precedence → Parser Expression) (left : Expression)
    {s : State} (h : s.current.kind ≠ .leftParen) :
    (Parser.operation expr left).run s =
      (operation (expr (.ofKind s.current.kind)) left).run s := by
  rw [Parser.operation, Parser.run_bind_ok _ (Parser.run_current s), if_neg h]
  rfl

/-! ### The coupling -/

/-- A fault for which the number of open expressions is to blame. -/
def Fault.IsTooDeep (fault : Fault) : Prop := ∃ levels found, fault = .tooDeep levels found

/-- The positions differ in the number of open expressions at most. -/
def Unnested (s t : State) : Prop := { s with nesting := 0 } = { t with nesting := 0 }

namespace Unnested

variable {s t : State}

theorem current (h : Unnested s t) : s.current = t.current := (congrArg State.current h :)

theorem peek (h : Unnested s t) : s.peek = t.peek := (congrArg State.peek h :)

theorem braceDepth (h : Unnested s t) : s.braceDepth = t.braceDepth :=
  (congrArg State.braceDepth h :)

theorem events (h : Unnested s t) : s.events = t.events := (congrArg State.events h :)

theorem advance (h : Unnested s t) : Unnested s.advance t.advance := congrArg State.advance h

theorem note (h : Unnested s t) (event : Event) : Unnested (s.note event) (t.note event) :=
  congrArg (State.note · event) h

end Unnested

/-- Two runs that differ in the number of open expressions, until the first one finds that there are
too many. -/
def climbing : Coupling where
  left := .full
  right := .full
  Near := Unnested
  Ready _ := True
  Lost s _ := ∃ fault ∈ s.faults, fault.IsTooDeep
  Doomed := Fault.IsTooDeep
  similar near := near.current ▸ similar_full _
  similar_peek near _ := near.peek ▸ similar_full _
  advance near _ := .inl ⟨near.advance, trivial⟩
  began near := by
    rw [← near.current]
    exact near.note _
  completed near := near.note _
  ready _ _ := trivial
  lost := by
    rintro s s' _ _ ⟨fault, found, deep⟩ moved -
    exact ⟨fault, moved.faults_le.subset found, deep⟩

theorem roams_climbing : climbing.Roams where
  similar_peek near := near.peek ▸ similar_full _
  advance near := .inl near.advance
  braceDepth near := near.braceDepth
  failed {s t f g} near same := by
    obtain rfl : f = g := Fault.eq_of_view_full same
    exact near.note _
  doomed {f} deep s t := ⟨f, by simp, deep⟩

/-- The same expression has been read, and no operator ahead binds tighter than the bound. -/
def Read (bound : Precedence) (e e' : Expression) (m : State) : Prop :=
  Coupling.Firm climbing.SameExpression e e' m ∧ ¬bound < .ofKind m.peek.kind

/-- The first parser reads what the second one reads, and stops at an operator that is not tighter
than the bound. -/
def Climbs (bound : Precedence) (p q : Parser Expression) : Prop :=
  ∀ ⦃s t : State⦄, climbing.Near s t → climbing.Meets (Read bound) (p.run s) (q.run t)

theorem Climbs.agree {bound : Precedence} {p q : Parser Expression} (h : Climbs bound p q) :
    climbing.Agree p q :=
  fun _ _ near _ => (h near).mono fun _ _ _ read => read.1

section
variable {expr : Precedence → Parser Expression} {inner : Parser Expression}

/-! ### One level after the other -/

/-- Behind a primary expression, only lists of arguments are folded at the tightest bounds. -/
theorem climbs_applied {bound : Precedence} (tight : bound = .product ∨ bound = .unary)
    (h : climbing.Agree (expr .lowest) inner) {s t : State} (near : Unnested s t) :
    climbing.Meets (Read bound) ((primary expr >>= Parser.fold expr bound).run s)
      ((applied inner).run t) := by
  have binds (kind : Kind) : bound < .ofKind kind ↔ kind ∈ [Kind.leftParen] := by
    rw [(mem_iff_ofKind kind).2.2.2.2]
    rcases tight with rfl | rfl
    · rfl
    · exact (unary_lt_ofKind kind).symm
  have blocks : climbing.AgreeOnBlocks (Parser.block expr) (Parser.block fun _ => inner) :=
    roams_climbing.agree_block h
  have callee : AgreeAnywhere climbing (primary expr) (primary fun _ => inner) :=
    agree_primary h blocks
  apply climbing.meets_bind (callee near)
  rintro e e' s t near ⟨same, solid⟩
  have ended := climbing.meets_loop (fun _ => True) (Parser.fold_eq expr bound)
    (chain_eq [.leftParen] (by decide) (application fun _ => inner)) ?_ ?_ ?_ same near solid
    trivial
  · exact ended.mono fun v w m h => ⟨h.1, of_decide_eq_false h.2.2⟩
  · intro s t near _ _
    rw [near.peek]
    exact decide_eq_decide.2 (binds _).symm
  · exact fun s found => Kind.solid_of_binds (of_decide_eq_true found)
  · intro e e' s t same _ found near
    have paren : s.advance.current.kind = .leftParen :=
      List.mem_singleton.1 ((binds _).1 (of_decide_eq_true found))
    rw [run_operation_leftParen expr e paren]
    have arguments : climbing.AgreeBehind climbing.SameExpression (application expr e)
        (application (fun _ => inner) e') := agree_application h same
    exact (arguments near (by rw [paren]; decide)).mono fun v w m h => ⟨h, trivial⟩

/-- At the tightest bounds, signs and what may be applied behind them are read. -/
theorem climbs_unary {bound : Precedence} (tight : bound = .product ∨ bound = .unary)
    (h : climbing.Agree (expr .lowest) inner) (signs : Climbs .unary (expr .unary) (unary inner)) :
    Climbs bound (Parser.operators expr bound) (unary inner) := by
  intro s t near
  have operand := run_operand expr s
  rw [unary_eq, Parser.run_bind_ok _ (Parser.run_current t), ← near.current]
  by_cases sign : s.current.kind ∈ [.bang, .minus]
  · rw [if_pos sign] at operand ⊢
    have solid : s.current.kind.Solid := solid_of_mem (by decide) (by decide) sign
    have same : (Parser.operators expr bound).run s =
        (do
          Parser.advance
          let e ← expr .unary
          Parser.fold expr bound (.unary s.current s.current.literal e)).run s := by
      rw [Parser.operators, Parser.run_bind_congr operand fun _ _ _ => rfl, Parser.unary]
      simp only [bind_assoc, pure_bind]
    rw [same]
    refine climbing.meets_advance near solid fun near _ => ?_
    apply climbing.meets_bind (signs near)
    rintro e e' m m' near ⟨⟨same, solid⟩, weak⟩
    -- what follows the operand of a sign does not bind tighter than the sign
    have weak : ¬bound < .ofKind m.peek.kind := by
      rcases tight with rfl | rfl
      · exact fun tighter => weak ((unary_lt_ofKind _).1 tighter)
      · exact weak
    have stopped : (Parser.fold expr bound (.unary s.current s.current.literal e)).run m =
        (.ok (.unary s.current s.current.literal e), m) := Parser.foldFrom_of_weak expr weak
    rw [stopped]
    refine .ok near ⟨⟨?_, solid⟩, weak⟩
    have same : e.view .full = e'.view .full := same
    show Expression.view .full _ = Expression.view .full _
    rw [Expression.view, Expression.view, same]
  · rw [if_neg sign] at operand ⊢
    have same : (Parser.operators expr bound).run s =
        (primary expr >>= Parser.fold expr bound).run s :=
      Parser.run_bind_congr operand fun _ _ _ => rfl
    rw [same]
    exact climbs_applied tight h near

/-- The loop over the operators of one more level is the chain of that level. -/
theorem climbs_level {q r : Precedence} {kinds : List Kind} {real : .endOfInput ∉ kinds}
    {next : Parser Expression} (kinds_iff : ∀ kind, kind ∈ kinds ↔ .ofKind kind = q)
    (above : q.rank = r.rank + 1) (below : q < .call) (h : Climbs q (expr q) next)
    (first : Climbs q (Parser.operators expr q) next) :
    Climbs r (Parser.operators expr r) (level kinds real next) := by
  have cut : Parser.operators expr r = Parser.operators expr q >>= Parser.fold expr r := by
    have weaker : r ≤ q := Nat.le_of_lt (above ▸ Nat.lt_succ_self r.rank)
    rw [Parser.operators, Parser.operators, bind_assoc]
    exact congrArg (Parser.operand expr >>= ·) (funext (fold_fold expr weaker))
  intro s t near
  rw [cut]
  apply climbing.meets_bind (first near)
  rintro e e' s t near ⟨⟨same, solid⟩, weak⟩
  have ended := climbing.meets_loop (fun m => ¬q < .ofKind m.peek.kind) (Parser.fold_eq expr r)
    (chain_eq kinds real (operation next)) ?_ ?_ ?_ same near solid weak
  · exact ended.mono fun v w m h => ⟨h.1, of_decide_eq_false h.2.2⟩
  · -- what binds tighter than `r` but not tighter than `q` is of the level in between
    intro s t near _ weak
    rw [near.peek, Precedence.lt_iff_rank] at weak
    rw [near.peek, decide_eq_decide, kinds_iff, Precedence.lt_iff_rank, ← Precedence.rank_inj]
    omega
  · exact fun s found => Kind.solid_of_binds (of_decide_eq_true found)
  · intro e e' s t same weak found near
    have tighter : r < .ofKind s.peek.kind := of_decide_eq_true found
    have exact : .ofKind s.advance.current.kind = q := by
      rw [Precedence.lt_iff_rank] at weak tighter
      rw [State.advance_current, ← Precedence.rank_inj]
      omega
    have notCall : s.advance.current.kind ≠ .leftParen := by
      intro paren
      rw [paren] at exact
      exact absurd below (exact ▸ Nat.lt_irrefl 6)
    have binds : s.advance.current.kind.Solid := Kind.solid_of_binds tighter
    rw [run_operation_binary expr e notCall, exact]
    exact meets_operation h same near binds

/-! ### All levels -/

/-- The parser of the level whose operators bind tighter than the bound. -/
def levelAbove (inner : Parser Expression) : Precedence → Parser Expression
  | .lowest => equality inner
  | .equality => relational inner
  | .comparison => sum inner
  | .sum => product inner
  | .product | .unary | .call => unary inner

/-- If the loops inside of an expression read the levels, then so does the loop around them. -/
theorem climbs_operators
    (h : ∀ bound, bound < .call → Climbs bound (expr bound) (levelAbove inner bound))
    (knot : equality inner = inner) {bound : Precedence} (below : bound < .call) :
    Climbs bound (Parser.operators expr bound) (levelAbove inner bound) := by
  have whole : climbing.Agree (expr .lowest) inner := by
    have agree := (h .lowest (by decide)).agree
    rwa [levelAbove, knot] at agree
  have tightest : Climbs .product (Parser.operators expr .product) (unary inner) :=
    climbs_unary (.inl rfl) whole (h .unary (by decide))
  have products : Climbs .sum (Parser.operators expr .sum) (product inner) :=
    climbs_level (fun kind => (mem_iff_ofKind kind).2.2.2.1) rfl (by decide)
      (h .product (by decide)) tightest
  have sums : Climbs .comparison (Parser.operators expr .comparison) (sum inner) :=
    climbs_level (fun kind => (mem_iff_ofKind kind).2.2.1) rfl (by decide)
      (h .sum (by decide)) products
  have relations : Climbs .equality (Parser.operators expr .equality) (relational inner) :=
    climbs_level (fun kind => (mem_iff_ofKind kind).2.1) rfl (by decide)
      (h .comparison (by decide)) sums
  have equalities : Climbs .lowest (Parser.operators expr .lowest) (equality inner) :=
    climbs_level (fun kind => (mem_iff_ofKind kind).1) rfl (by decide)
      (h .equality (by decide)) relations
  cases bound with
  | lowest => exact equalities
  | equality => exact relations
  | comparison => exact sums
  | sum => exact products
  | product => exact tightest
  | unary => exact climbs_unary (.inr rfl) whole (h .unary (by decide))
  | call => exact absurd below (by decide)

end

theorem climbs_nested {bound : Precedence} {p q : Parser Expression} (h : Climbs bound p q) :
    Climbs bound (Parser.nested p) q := by
  intro s t near
  have meets : climbing.Meets (Read bound) (p.run { s with nesting := s.nesting + 1 }) (q.run t) :=
    h near
  exact meets.moved (f := State.close) (g := id) (fun near => near) (fun lost => lost)
    fun _ _ _ read => read

/-- As long as not too many expressions are open, the loop reads the levels. -/
theorem climbs_expressionWithin (levels : Nat) {bound : Precedence} (below : bound < .call) :
    Climbs bound (Parser.expressionWithin levels bound)
      (levelAbove Stratified.expression bound) := by
  induction levels generalizing bound with
  | zero => exact fun s t near => .doomed ⟨s.nesting, s.current, rfl⟩
  | succ levels ih =>
    exact climbs_nested (climbs_operators (fun _ => ih) Stratified.expression_eq.symm below)

/-- **Climbing reads the levels.**  If no fault of a text says that too many expressions are open,
then one loop with a bound gives the same program and finds the same faults as a chain for every
level of operators. -/
theorem Parsed.stratified_eq_ofString {source : String}
    (shallow : ∀ fault ∈ (ofString source).faults, ¬fault.IsTooDeep) :
    stratified source = ofString source := by
  have agree : climbing.Agree (Parser.expression maxNesting .lowest) Stratified.expression := by
    intro s t near _
    have climbs : Climbs .lowest _ (levelAbove Stratified.expression .lowest) :=
      climbs_expressionWithin (maxNesting - s.nesting) (by decide)
    rw [levelAbove, ← Stratified.expression_eq] at climbs
    exact climbs.agree near trivial
  have near : Unnested (.ofLexer (.ofString source)) (.ofLexer (.ofString source)) := rfl
  have ended := roams_climbing.statementsBy (Parser.expression maxNesting)
    (fun _ => Stratified.expression) agree near trivial
  rw [← State.statements_eq_statementsBy] at ended
  obtain ⟨near, same⟩ | ⟨fault, found, deep⟩ := ended
  · have same : statementViews .full _ = statementViews .full _ := same
    rw [statementViews_full, statementViews_full] at same
    have happened := congrArg List.reverse near.events
    show Parsed.mk ⟨_⟩ (List.reverse _) = Parsed.mk ⟨_⟩ (List.reverse _)
    rw [← same, ← happened]
    rfl
  · exact absurd deep (shallow fault found)

/-- Operators of every level, and a broken statement. -/
theorem Parsed.stratified_eq_ofString_levels :
    (∀ fault ∈ (ofString "!a == -b(1)(2) * c + d < e - f / 2; x + ; (y").faults,
        ¬fault.IsTooDeep) ∧
      stratified "!a == -b(1)(2) * c + d < e - f / 2; x + ; (y" =
        ofString "!a == -b(1)(2) * c + d < e - f / 2; x + ; (y" := by
  have faults : (ofString "!a == -b(1)(2) * c + d < e - f / 2; x + ; (y").faults =
      [.noOperand ⟨.semicolon, ";", ⟨1, 41⟩⟩, .unexpected .rightParen (.endOfInput ⟨1, 45⟩)] := by
    decide +kernel
  have shallow : ∀ fault ∈ (ofString "!a == -b(1)(2) * c + d < e - f / 2; x + ; (y").faults,
      ¬fault.IsTooDeep := by
    rw [faults]
    simp [Fault.IsTooDeep]
  exact ⟨shallow, stratified_eq_ofString shallow⟩

end MonkeyLang
