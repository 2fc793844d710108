import MonkeyLang.Proofs.Coupling

/-!
# Expressions level by level

The textbook way to read expressions with operators: one parser for every level of binding strength,
each a chain of what the next tighter level reads.

    equality   = relational (("==" | "!=") relational)*
    relational = sum (("<" | ">") sum)*
    sum        = product (("+" | "-") product)*
    product    = unary (("*" | "/") unary)*
    unary      = ("!" | "-")* applied
    applied    = primary arguments*
    primary    = identifier | integer | boolean | "(" expression ")" | choice | function

There is no limit on the number of open expressions.  The parsers take the parser of the expressions
inside of parentheses, braces and lists as a parameter, and `expression` ties the knot: it may call
itself only where fewer tokens are left.  That is everywhere where it is called: `expression_eq`
says that it is the parser of equalities with itself as the parameter.
-/

open MonkeyLang.Parser

namespace MonkeyLang.Stratified

/-! ### Chains -/

/-- As long as a token of one of the kinds is ahead, moves on to it and takes it, with what `step`
reads there, into the expression on its left. -/
def chainFrom (kinds : List Kind) (real : .endOfInput ∉ kinds)
    (step : Expression → Parser Expression) (left : Expression) (state : State) :
    Except Fault Expression × State :=
  if _ : state.peek.kind ∈ kinds then
    let taken := (step left).run state.advance
    match taken.1 with
    | .ok whole => chainFrom kinds real step whole taken.2
    | .error fault => (.error fault, taken.2)
  else (.ok left, state)
termination_by state.tokens.length
decreasing_by
  rename_i found
  have shorter := (step left).length_le state.advance
  have two := state.two_le_length_of_peek fun ended => real (ended ▸ found)
  have advanced := state.length_advance
  omega

section
variable (kinds : List Kind) (real : .endOfInput ∉ kinds) (step : Expression → Parser Expression)

/-- A chain does not move back. -/
theorem chainFrom_reaches (left : Expression) (state : State) :
    state.Reaches (chainFrom kinds real step left state).2 := by
  fun_induction chainFrom kinds real step left state with
  | case1 left state _ taken whole _ ih =>
    exact ((State.Reaches.refl state).advance.trans ((step left).reaches _)).trans ih
  | case2 left state => exact (State.Reaches.refl state).advance.trans ((step left).reaches _)
  | case3 left state => exact .refl state

/-- The chain that begins with the expression `left`. -/
def chain (left : Expression) : Parser Expression :=
  ⟨chainFrom kinds real step left, chainFrom_reaches kinds real step left⟩

/-- If a link is ahead it comes first, and then the others. -/
theorem chain_eq (left : Expression) :
    chain kinds real step left = (do
      if ← look fun state => decide (state.peek.kind ∈ kinds) then
        advance
        let whole ← step left
        chain kinds real step whole
      else pure left) := by
  ext1 state
  show chainFrom kinds real step left state = _
  rw [run_bind_ok _ (run_look _ state)]
  by_cases found : state.peek.kind ∈ kinds
  · rw [chainFrom, dif_pos found, if_pos (decide_eq_true found),
      run_bind_ok _ (run_advance state)]
    cases taken : (step left).run state.advance with
    | mk outcome later =>
      cases outcome with
      | error fault => rw [run_bind_error _ taken]
      | ok whole =>
        rw [run_bind_ok _ taken]
        rfl
  · rw [chainFrom, dif_neg found, if_neg (by simpa using found), run_pure]

end

/-! ### From the tightest level to the weakest -/

section
variable (expr : Precedence → Parser Expression)

/-- An expression without operators. -/
def primary : Parser Expression := do
  let token ← current
  match token.kind with
  | .identifier => pure (.identifier ⟨token, token.literal⟩)
  | .integer => integer token
  | .trueWord => pure (.boolean token true)
  | .falseWord => pure (.boolean token false)
  | .leftParen => group expr
  | .ifWord => conditional expr token
  | .functionWord => function expr token
  | _ => fail (.noOperand token)

/-- The parenthesis under the reading head with its arguments, for the callee on its left. -/
def application (callee : Expression) : Parser Expression := do
  let token ← current
  let arguments ← listed (argument expr)
  pure (.call token callee arguments)

end

section
variable (inner : Parser Expression)

/-- A primary expression and lists of arguments behind it. -/
def applied : Parser Expression := do
  let callee ← primary fun _ => inner
  chain [.leftParen] (by decide) (application fun _ => inner) callee

/-- Signs before an expression that may be applied. -/
def unaryFrom (state : State) : Except Fault Expression × State :=
  if _ : state.current.kind ∈ [.bang, .minus] then
    let operand := unaryFrom state.advance
    (operand.1.map (.unary state.current state.current.literal), operand.2)
  else (applied inner).run state
termination_by state.tokens.length
decreasing_by
  rename_i sign
  have positive := List.length_pos_iff.2 (state.tokens_ne_nil_of_current fun ended => by
    rw [ended] at sign
    exact absurd sign (by decide))
  have advanced := state.length_advance
  omega

/-- Signs are read without moving back. -/
theorem unaryFrom_reaches (state : State) : state.Reaches (unaryFrom inner state).2 := by
  fun_induction unaryFrom inner state with
  | case1 state _ operand ih => exact (State.Reaches.refl state).advance.trans ih
  | case2 state => exact (applied inner).reaches state

/-- Any number of signs and an expression that may be applied. -/
def unary : Parser Expression := ⟨unaryFrom inner, unaryFrom_reaches inner⟩

/-- Behind a sign there may be further ones. -/
theorem unary_eq :
    unary inner = (do
      let token ← current
      if token.kind ∈ [.bang, .minus] then
        advance
        let operand ← unary inner
        pure (.unary token token.literal operand)
      else applied inner) := by
  ext1 state
  show unaryFrom inner state = _
  rw [run_bind_ok _ (run_current state)]
  by_cases sign : state.current.kind ∈ [.bang, .minus]
  · rw [unaryFrom, dif_pos sign, if_pos sign, run_bind_ok _ (run_advance state)]
    cases operand : (unary inner).run state.advance with
    | mk outcome later =>
      have unfolded : unaryFrom inner state.advance = (outcome, later) := operand
      cases outcome with
      | error fault =>
        rw [unfolded, run_bind_error _ operand]
        rfl
      | ok value =>
        rw [unfolded, run_bind_ok _ operand]
        rfl
  · rw [unaryFrom, dif_neg sign, if_neg sign]

/-- The operator under the reading head with the expression on its left, and with what `next` reads
on its right. -/
def operation (next : Parser Expression) (left : Expression) : Parser Expression := do
  let token ← current
  advance
  let right ← next
  pure (.binary token left token.literal right)

/-- Operators of one level between what the next tighter level reads. -/
def level (kinds : List Kind) (real : .endOfInput ∉ kinds) (next : Parser Expression) :
    Parser Expression := do
  let left ← next
  chain kinds real (operation next) left

/-- Products and quotients. -/
def product : Parser Expression := level [.asterisk, .slash] (by decide) (unary inner)

/-- Sums and differences. -/
def sum : Parser Expression := level [.plus, .minus] (by decide) (product inner)

/-- Comparisons by size. -/
def relational : Parser Expression := level [.less, .greater] (by decide) (sum inner)

/-- Comparisons of values for being the same. -/
def equality : Parser Expression := level [.equal, .notEqual] (by decide) (relational inner)

end

/-! ### Runs side by side -/

/-- At all positions that correspond, both parsers do the same. -/
def AgreeAnywhere (c : Coupling) (p q : Parser Expression) : Prop :=
  ∀ ⦃s t : State⦄, c.Near s t → c.Meets (Coupling.Firm c.SameExpression) (p.run s) (q.run t)

section
variable {c : Coupling} {expr expr' : Precedence → Parser Expression}

theorem agree_primary (h : c.Agree (expr .lowest) (expr' .lowest))
    (blocks : c.AgreeOnBlocks (block expr) (block expr')) :
    AgreeAnywhere c (primary expr) (primary expr') := by
  intro s t near
  have similar := c.similar near
  rw [primary, primary, run_bind_ok _ (run_current s), run_bind_ok _ (run_current t), similar.kind]
  split
  case h_8 => exact c.meets_fail near (by simp only [Fault.view, similar.node])
  all_goals
    rename_i kind
    have solid : s.current.kind.Solid := by rw [kind]; decide
  · exact c.agree_identifier similar near solid
  · exact c.agree_integer similar near solid
  · exact c.agree_boolean similar true near solid
  · exact c.agree_boolean similar false near solid
  · exact c.agree_group h near solid
  · exact c.agree_conditional h blocks similar near solid
  · exact c.agree_function blocks similar near solid

theorem agree_application (h : c.Agree (expr .lowest) (expr' .lowest)) {e e' : Expression}
    (same : c.SameExpression e e') :
    c.AgreeBehind c.SameExpression (application expr e) (application expr' e') := by
  intro s t near solid
  have similar := c.similar near
  have same : e.view c.left = e'.view c.right := same
  rw [application, application, run_bind_ok _ (run_current s), run_bind_ok _ (run_current t)]
  apply c.meets_bind (c.agree_listed (c.agree_argument h) near solid)
  rintro arguments arguments' s t near ⟨all, solid⟩
  refine c.meets_pure near ⟨?_, solid⟩
  simp only [Coupling.SameExpression, Expression.view, similar.node, same, c.sameExpressions all]

end

section
variable {c : Coupling} {kinds : List Kind} {real : .endOfInput ∉ kinds}

/-- The kinds of token that may stand between the links of a chain, semicolons left out. -/
theorem solid_of_mem {kind : Kind} (real : .endOfInput ∉ kinds) (ends : .semicolon ∉ kinds)
    (h : kind ∈ kinds) : kind.Solid :=
  ⟨fun same => ends (same ▸ h), fun same => real (same ▸ h)⟩

theorem agree_chain (ends : .semicolon ∉ kinds) {step step' : Expression → Parser Expression}
    (h : ∀ e e', c.SameExpression e e' → c.AgreeBehind c.SameExpression (step e) (step' e'))
    {e e' : Expression} (same : c.SameExpression e e') :
    c.AgreeBehind c.SameExpression (chain kinds real step e) (chain kinds real step' e') := by
  intro s t near solid
  have ended := c.meets_loop (fun _ => True) (chain_eq kinds real step) (chain_eq kinds real step')
    (fun s t near solid _ => by rw [(c.similar_peek near solid).kind])
    (fun s found => solid_of_mem real ends (of_decide_eq_true found))
    (fun e e' s t same _ found near => ?_) same near solid trivial
  · exact ended.mono fun v w m h => h.1
  · have link : s.advance.current.kind.Solid := solid_of_mem real ends (of_decide_eq_true found)
    exact (h e e' same near link).mono fun v w m h => ⟨h, trivial⟩

/-- An operation ends where its right operand ends, so what is `known` there is kept. -/
theorem meets_operation {known : State → Prop} {next next' : Parser Expression} {s t : State}
    (h : ∀ ⦃s t : State⦄, c.Near s t →
      c.Meets (fun e e' m => Coupling.Firm c.SameExpression e e' m ∧ known m) (next.run s)
        (next'.run t))
    {e e' : Expression} (same : c.SameExpression e e') (near : c.Near s t)
    (solid : s.current.kind.Solid) :
    c.Meets (fun e e' m => Coupling.Firm c.SameExpression e e' m ∧ known m)
      ((operation next e).run s) ((operation next' e').run t) := by
  have similar := c.similar near
  have same : e.view c.left = e'.view c.right := same
  rw [operation, operation, run_bind_ok _ (run_current s), run_bind_ok _ (run_current t)]
  refine c.meets_advance near solid fun near _ => ?_
  apply c.meets_bind (h near)
  rintro r r' s t near ⟨⟨right, solid⟩, kept⟩
  refine c.meets_pure near ⟨⟨?_, solid⟩, kept⟩
  have right : r.view c.left = r'.view c.right := right
  simp only [Coupling.SameExpression, Expression.view, similar.node, similar.literal, same, right]

theorem agree_level (ends : .semicolon ∉ kinds) {next next' : Parser Expression}
    (h : AgreeAnywhere c next next') :
    AgreeAnywhere c (level kinds real next) (level kinds real next') := by
  intro s t near
  apply c.meets_bind (h near)
  rintro e e' s t near ⟨same, solid⟩
  refine agree_chain ends (fun e e' same s t near solid => ?_) same near solid
  have links : ∀ ⦃s t : State⦄, c.Near s t → c.Meets (fun e e' m =>
      Coupling.Firm c.SameExpression e e' m ∧ True) (next.run s) (next'.run t) :=
    fun s t near => (h near).mono fun _ _ _ firm => ⟨firm, trivial⟩
  exact (meets_operation links same near solid).mono fun _ _ _ firm => firm.1

variable {inner inner' : Parser Expression}

theorem agree_applied (h : c.Agree inner inner')
    (blocks : c.AgreeOnBlocks (block fun _ => inner) (block fun _ => inner')) :
    AgreeAnywhere c (applied inner) (applied inner') := by
  intro s t near
  apply c.meets_bind (agree_primary h blocks near)
  rintro e e' s t near ⟨same, solid⟩
  exact agree_chain (by decide) (fun e e' same => agree_application h same) same near solid

theorem agree_unary (h : AgreeAnywhere c (applied inner) (applied inner')) :
    AgreeAnywhere c (unary inner) (unary inner') := by
  intro s t near
  induction length : s.tokens.length using Nat.strongRecOn generalizing s t with
  | ind n ih =>
    have similar := c.similar near
    rw [unary_eq inner, unary_eq inner', run_bind_ok _ (run_current s),
      run_bind_ok _ (run_current t), similar.kind]
    by_cases sign : s.current.kind ∈ [.bang, .minus]
    · rw [if_pos sign, if_pos sign]
      have solid := solid_of_mem (by decide) (by decide) sign
      have positive := List.length_pos_iff.2 (s.tokens_ne_nil_of_current solid.2)
      refine c.meets_advance near solid fun near _ => ?_
      have shorter : s.advance.tokens.length < n := by
        rw [State.length_advance]
        omega
      apply c.meets_bind (ih _ shorter near rfl)
      rintro e e' s t near ⟨same, solid⟩
      refine c.meets_pure near ⟨?_, solid⟩
      simp only [Coupling.SameExpression, Expression.view, similar.node, similar.literal,
        show e.view c.left = e'.view c.right from same]
    · rw [if_neg sign, if_neg sign]
      exact h near

theorem agree_equality (h : c.Agree inner inner')
    (blocks : c.AgreeOnBlocks (block fun _ => inner) (block fun _ => inner')) :
    AgreeAnywhere c (equality inner) (equality inner') :=
  agree_level (by decide) (agree_level (by decide) (agree_level (by decide)
    (agree_level (by decide) (agree_unary (agree_applied h blocks)))))

end

/-! ### Tying the knot -/

/-- An expression, and the proof that reading it does not move back. -/
def expressionFrom (state : State) :
    { result : Except Fault Expression × State // state.Reaches result.2 } :=
  let inner : Parser Expression :=
    { run := fun later =>
        if _ : later.tokens.length < state.tokens.length then (expressionFrom later).1
        else (.error (.noOperand later.current), later)
      reaches := fun later => by
        split
        · exact (expressionFrom later).2
        · exact .refl later }
  ⟨(equality inner).run state, (equality inner).reaches state⟩
termination_by state.tokens.length

/-- An expression of any kind. -/
def expression : Parser Expression :=
  ⟨fun state => (expressionFrom state).1, fun state => (expressionFrom state).2⟩

/-- A parser that is to be called only where fewer than `n` tokens are left. -/
def fewer (n : Nat) (parser : Parser Expression) : Parser Expression where
  run state :=
    if state.tokens.length < n then parser.run state else (.error (.noOperand state.current), state)
  reaches state := by
    split
    · exact parser.reaches state
    · exact .refl state

theorem run_expression (state : State) :
    expression.run state = (equality (fewer state.tokens.length expression)).run state := by
  show (expressionFrom state).1 = _
  rw [expressionFrom]
  rfl

/-- A run and itself, where at most `n` tokens are left, and fewer if an expression is to begin. -/
def ofItself (n : Nat) : Coupling where
  left := .full
  right := .full
  Near s t := s = t ∧ s.tokens.length ≤ n
  Ready s := s.tokens.length < n
  Lost _ _ := False
  Doomed _ := False
  similar near := near.1 ▸ similar_full _
  similar_peek near _ := near.1 ▸ similar_full _
  advance {s t} near solid := by
    have shorter := s.length_advance
    have positive := List.length_pos_iff.2 (s.tokens_ne_nil_of_current solid.2)
    have few : s.tokens.length ≤ n := near.2
    exact .inl ⟨⟨congrArg State.advance near.1, by omega⟩, by omega⟩
  began near := ⟨by rw [near.1], near.2⟩
  completed near := ⟨by rw [near.1], near.2⟩
  ready few moved := Nat.lt_of_le_of_lt moved.tokens_suffix.length_le few
  lost h _ _ := h

theorem roams_ofItself (n : Nat) : (ofItself n).Roams where
  similar_peek near := near.1 ▸ similar_full _
  advance {s t} near := by
    have shorter := s.length_advance
    have few : s.tokens.length ≤ n := near.2
    exact .inl ⟨congrArg State.advance near.1, by omega⟩
  braceDepth near := by rw [near.1]
  failed {s t f g} near same := by
    obtain rfl : f = g := Fault.eq_of_view_full same
    exact ⟨by rw [near.1], near.2⟩
  doomed h := h.elim

theorem exact_ofItself (n : Nat) : (ofItself n).Exact where
  left := rfl
  right := rfl
  near near := near.1
  lost h := h
  doomed h := h

theorem expression_meets (s : State) :
    (ofItself s.tokens.length).Meets (Coupling.Firm (ofItself s.tokens.length).SameExpression)
      (expression.run s) ((equality expression).run s) := by
  induction length : s.tokens.length using Nat.strongRecOn generalizing s with
  | ind n ih =>
    -- where fewer tokens are left, the inner parser is the whole parser
    have agree : (ofItself n).Agree (fewer n expression) expression := by
      rintro s _ ⟨rfl, few⟩ ready
      rw [show (fewer n expression).run s = expression.run s from if_pos ready]
      have near := Nat.le_trans (expression.length_le s) few
      have solid e := (ih _ ready s rfl).solid (exact_ofItself _).lost (v := e)
      exact Coupling.meets_self rfl ⟨rfl, near⟩ solid
    have blocks : (ofItself n).AgreeOnBlocks (block fun _ => fewer n expression)
        (block fun _ => expression) := (roams_ofItself n).agree_block agree
    rw [run_expression s, length]
    exact agree_equality agree blocks ⟨rfl, Nat.le_of_eq length⟩

/-- An expression is an equality whose parts hold expressions. -/
theorem expression_eq : expression = equality expression :=
  Parser.ext fun state => (exact_ofItself _).eq_of_meets (expression_meets state)

end MonkeyLang.Stratified

/-- Parses a text level by level, with no limit on the number of open expressions. -/
def MonkeyLang.Parsed.stratified (source : String) : Parsed :=
  match (State.ofLexer (.ofString source)).statementsBy fun _ => Stratified.expression with
  | (statements, final) => ⟨⟨statements⟩, final.history⟩
