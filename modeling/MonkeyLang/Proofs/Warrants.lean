import MonkeyLang.Proofs.Diagnosis
import MonkeyLang.Proofs.OpenExpressions

/-!
# Every fault tells the truth about one token

No other token stands at the place of a fault than the one at which it was found, the end of input
included, and the message is true of that token (`Parsed.warranted_ofString`).

For the message that too many expressions are open this means to follow the run down to the token.
`Parser.Called` is the chain of the calls of the parser of expressions that are running there: the
loop over the statements of the program makes the first one, and each of the others is made while
the one before it reads an operand with its operators.  With as many calls running as may be, the
next one is refused where it stands (`Called.refused`), and what such a message says was found by a
call like this (`Called.founded`).
-/

namespace MonkeyLang

namespace Parser

open State

variable {limit running : Nat} {bound : Precedence} {start s m : State} {fault : Fault}
  {expr : Precedence → Parser Expression}
  {parser : (Precedence → Parser Expression) → Parser Expression}

/-! ### Calls inside of calls -/

/-- The parser of expressions asks whether one more may be opened, and calls itself for those
inside. -/
theorem expression_eq_admitted (limit : Nat) (bound : Precedence) :
    expression limit bound = admitted limit (operators (expression limit) bound) := by
  ext1 s
  by_cases full : limit ≤ s.nesting
  · rw [run_expression_of_le bound full, run_admitted_of_le full]
    rfl
  · have room := Nat.lt_of_not_le full
    rw [run_expression_of_lt bound room, run_admitted_of_lt room]

/-- If one more expression may be opened, then what is found inside is found. -/
theorem finds_admitted_iff {parser : Parser Expression} (room : s.nesting < limit) :
    (admitted limit parser).Finds s fault ↔
      parser.Finds { s with nesting := s.nesting + 1 } fault := by
  rw [Finds, run_admitted_of_lt room]
  exact Iff.rfl

theorem calls_admitted_iff (room : s.nesting < limit) :
    Calls (fun expr => admitted limit (parser expr)) expr s bound m ↔
      Calls parser expr { s with nesting := s.nesting + 1 } bound m :=
  forall_congr' fun _ => finds_admitted_iff room

/-- Only if one more expression may be opened, another one is called. -/
theorem room_of_calls
    (calls : Calls (fun expr => admitted limit (parser expr)) expr s bound m) :
    s.nesting < limit := by
  by_contra full
  have refused (parser : Parser Expression) : (admitted limit parser).run s = tooDeep.run s :=
    run_admitted_of_le (Nat.le_of_not_lt full)
  obtain ⟨answer, other⟩ := calls.exists_answer
  exact other ((refused _).trans (refused _).symm)

/-- The parser of expressions is called for an expression with this bound at this position, with so
many calls of it running.  The loop over the statements from `start` on makes the first call, and
each call makes the next. -/
inductive Called (limit : Nat) (start : State) : (running : Nat) → Precedence → State → Prop
  | outermost {bound : Precedence} {s : State}
      (calls : Calls toEnd (expression limit) start bound s) : Called limit start 0 bound s
  | inner {running : Nat} {bound bound' : Precedence} {s m : State}
      (outer : Called limit start running bound s)
      (calls : Calls (fun expr => admitted limit (operators expr bound)) (expression limit) s
        bound' m) :
      Called limit start (running + 1) bound' m

/-- The number of open expressions is the number of the calls that are running. -/
theorem Called.nesting_eq (h : Called limit start running bound s) :
    s.nesting = start.nesting + running := by
  induction h with
  | outermost calls => exact (truthful_toEnd.reaches_of_calls calls).nesting_eq
  | @inner running bound bound' s m outer calls ih =>
    have inside := (calls_admitted_iff (room_of_calls calls)).1 calls
    have counted : m.nesting = s.nesting + 1 :=
      ((truthful_operators bound).reaches_of_calls inside).nesting_eq
    rw [counted, ih, Nat.add_assoc]

/-- No more calls are running than expressions may be open. -/
theorem Called.running_le (h : Called limit start running bound s) : running ≤ limit := by
  cases h with
  | outermost _ => exact Nat.zero_le limit
  | inner outer calls =>
    have room := room_of_calls calls
    rw [outer.nesting_eq] at room
    omega

/-- With as many calls running as may be, the next one is refused where it stands. -/
theorem Called.refused (top : start.nesting = 0) (h : Called limit start limit bound s) :
    (expression limit bound).run s = (.error (.tooDeep limit s.current), s) := by
  have full : s.nesting = limit := by rw [h.nesting_eq, top, Nat.zero_add]
  have failed := run_expression_of_le bound (Nat.le_of_eq full.symm)
  rwa [full] at failed

/-- What a call finds is true of its token, or it is found where a call is refused. -/
theorem Called.founded (top : start.nesting = 0) (h : Called limit start running bound s)
    (found : (expression limit bound).Finds s fault) :
    fault.Honest ∨
      ∃ bound m, Called limit start limit bound m ∧ fault = .tooDeep limit m.current := by
  -- by induction on the number of calls that may still be opened inside of this one
  induction left : limit - running generalizing running bound s with
  | zero =>
    obtain rfl : running = limit := Nat.le_antisymm h.running_le (Nat.le_of_sub_eq_zero left)
    have refused : (fail (.tooDeep running s.current) : Parser Expression).Finds s fault := by
      rwa [Finds, h.refused top] at found
    exact .inr ⟨bound, s, h, finds_fail_iff.1 refused⟩
  | succ left ih =>
    have room : s.nesting < limit := by
      rw [h.nesting_eq, top]
      omega
    -- the call reads an operand with its operators, which finds the fault itself or calls again
    rw [expression_eq_admitted, finds_admitted_iff room] at found
    obtain ⟨-, honest⟩ | ⟨bound', m, calls, found⟩ := (truthful_operators bound).founded fault found
    · exact .inl honest
    · exact ih (.inner h ((calls_admitted_iff room).2 calls)) found (by omega)

end Parser

/-! ### Whole programs -/

/-- The message is true of the token, when the program is read from the given position on. -/
inductive Token.Warrants (start : State) (token : Token) : String → Prop
  /-- Another kind of token was demanded. -/
  | unexpected (wanted : Kind) (demanded : wanted.Demanded) (other : token.kind ≠ wanted)
      (ended : wanted = .rightBrace → token.kind = .endOfInput) :
      Warrants start token ("expected " ++ wanted.description ++ ", found " ++ token.description)
  /-- The token begins no expression. -/
  | noOperand (h : ¬token.kind.Starts) :
      Warrants start token
        ("no prefix parse function for " ++ token.kind.description ++ " found")
  /-- The token is an integer literal whose value does not fit into 64 bits with a sign. -/
  | tooLarge (kind : token.kind = .integer)
      (large : 9223372036854775808 ≤ numeralValue token.literal.toList) :
      Warrants start token ("could not parse '" ++ token.literal ++ "' as integer")
  /-- At the token one more expression is called for, with as many calls running inside of one
  another as may be. -/
  | tooDeep (bound : Precedence) (s : State) (here : s.current = token)
      (called : Parser.Called maxNesting start maxNesting bound s) :
      Warrants start token "expression nested more than 128 levels deep"

theorem Fault.Honest.warrants {fault : Fault} (h : fault.Honest) (start : State) :
    fault.token.Warrants start fault.message := by
  cases fault with
  | unexpected wanted found => exact .unexpected wanted h.1 h.2.1 h.2.2
  | noOperand found => exact .noOperand h
  | tooLarge literal => exact .tooLarge h.1 h.2
  | tooDeep levels found => exact h.elim

/-- **Every fault tells the truth about one token of the text.**  Just one token stands at the place
of the fault, the end of input included, and the message is true of it. -/
theorem Parsed.warranted_ofString (source : String) (fault : Fault)
    (member : fault ∈ (ofString source).faults) :
    ∃ token, (Lexer.ofString source).tokenize.filter
        (fun other => other.location = fault.location) = [token] ∧
      token.Warrants (.ofLexer (.ofString source)) fault.message := by
  have among := (founded_ofString source fault member).1
  refine ⟨fault.token, filter_location_of_pairwise (Lexer.tokenize_pairwise _) among, ?_⟩
  have found := finds_toEnd member
  obtain ⟨-, honest⟩ | ⟨bound, s, calls, found⟩ := Parser.truthful_toEnd.founded fault found
  · exact honest.warrants _
  have outermost := Parser.Called.outermost calls
  obtain honest | ⟨bound, m, called, rfl⟩ := outermost.founded rfl found
  · exact honest.warrants _
  · exact .tooDeep bound m rfl called

/-- The message that too many expressions are open is true for no other reason. -/
theorem Token.Warrants.exists_called {start : State} {token : Token}
    (h : token.Warrants start "expression nested more than 128 levels deep") :
    ∃ bound s, s.current = token ∧ Parser.Called maxNesting start maxNesting bound s := by
  generalize said : "expression nested more than 128 levels deep" = message at h
  -- the messages differ in their first four characters
  have begins := congrArg (fun text : String => text.toList.take 4) said
  cases h with
  | unexpected wanted demanded other ended => simp at begins
  | noOperand h => simp at begins
  | tooLarge kind large => simp at begins
  | tooDeep bound s here called => exact ⟨bound, s, here, called⟩

/-- The operand of the last of 128 signs. -/
theorem Parsed.warranted_ofString_signs :
    let source := String.ofList (List.replicate 128 '-' ++ ['a'])
    Fault.tooDeep 128 ⟨.identifier, "a", ⟨1, 129⟩⟩ ∈ (ofString source).faults ∧
      ∃ token, (Lexer.ofString source).tokenize.filter
          (fun other => other.location = ⟨1, 129⟩) = [token] ∧
        ∃ bound s, s.current = token ∧
          Parser.Called maxNesting (.ofLexer (.ofString source)) maxNesting bound s := by
  intro source
  have member : Fault.tooDeep 128 ⟨.identifier, "a", ⟨1, 129⟩⟩ ∈ (ofString source).faults := by
    decide +kernel
  obtain ⟨token, just, warrants⟩ := warranted_ofString _ _ member
  exact ⟨member, token, just, warrants.exists_called⟩

end MonkeyLang
