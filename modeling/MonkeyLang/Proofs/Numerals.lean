import Mathlib.Data.Nat.Digits.Defs
import MonkeyLang.Proofs.Coherence
import MonkeyLang.Proofs.Completeness
import MonkeyLang.Proofs.LongestMatch
import MonkeyLang.Tree.Canonical

/-!
# Integer literals

A run of decimal digits, of any length and with any number of leading zeros, is an integer literal
of its decimal value if this is below the power of two with exponent 63, and otherwise the one fault
of the text (`Parsed.ofString_numeral`).  A sign before the digits is an operator and does not
belong to the literal, so it neither helps nor hinders.

The value is read digit by digit from the left; that it is the sum of the digits, each times its
power of ten, is `numeralValue_eq_decimalValue`.  A literal in range is read because it is a proper
phrase (`Parsed.ofTokens_complete`).  If it is too large, the fault is followed from the operand
that begins with it up to the statement, with which the text ends
(`Parsed.ofTokens_of_last_fault`).
-/

namespace MonkeyLang

/-! ### Decimal values -/

/-- The value of a run of decimal digits: the sum of the digits, each times its power of ten. -/
def decimalValue (digits : String) : Nat := Nat.ofDigits 10 (digits.toList.reverse.map digitValue)

/-- From the left the same value is found. -/
theorem numeralValue_eq_decimalValue (digits : String) :
    numeralValue digits.toList = decimalValue digits := by
  rw [decimalValue]
  -- the last digit is the lowest one in the sum, and the last one that is read
  induction digits.toList using List.reverseRecOn with
  | nil => rfl
  | append_singleton digits c ih =>
    rw [numeralValue_concat, ih, List.reverse_append, List.reverse_singleton, List.singleton_append,
      List.map_cons, Nat.ofDigits_cons, Nat.add_comm]

theorem le_maxInteger_iff {n : Nat} : n ≤ maxInteger ↔ n < 2 ^ 63 := by
  rw [maxInteger]
  omega

/-- What a literal denotes is its decimal value, which fits into 64 bits with a sign. -/
theorem denotes_iff (digits : String) (value : Int) :
    Denotes digits value ↔ value = decimalValue digits ∧ value < 2 ^ 63 := by
  rw [Denotes, numeralValue_eq_decimalValue, le_maxInteger_iff, and_comm]
  constructor
  · rintro ⟨rfl, inRange⟩
    exact ⟨rfl, by exact_mod_cast inRange⟩
  · rintro ⟨rfl, inRange⟩
    exact ⟨rfl, by exact_mod_cast inRange⟩

/-! ### The tokens -/

section
variable {digits : String}

theorem divides_numeral (nonempty : digits ≠ "")
    (decimal : ∀ c ∈ digits.toList, c.isDigit = true) :
    Divides digits.toList [⟨[], .integer, digits.toList⟩] [] := by
  refine divides_cons_iff.2 ⟨[], by simp [Piece.text], by simp [AllSpace], ?_,
    by simp [Kind.EndsBefore], divides_nil_iff.2 ⟨rfl, by simp [AllSpace]⟩⟩
  exact .number (fun empty => nonempty (String.toList_inj.1 empty)) decimal

/-- The digits are one token, -/
theorem Lexer.tokens_numeral (nonempty : digits ≠ "")
    (decimal : ∀ c ∈ digits.toList, c.isDigit = true) :
    (ofString digits).tokens = [⟨.integer, digits, ⟨1, 1⟩⟩] := by
  have tokens : (ofString digits).tokens = placed [] [⟨[], .integer, digits.toList⟩] :=
    tokens_of_divides (divides_numeral nonempty decimal) rfl
  rw [tokens, placed, placed, String.ofList_toList]
  rfl

/-- and the sign is another one. -/
theorem Lexer.tokens_negated (nonempty : digits ≠ "")
    (decimal : ∀ c ∈ digits.toList, c.isDigit = true) :
    (ofString ("-" ++ digits)).tokens =
      [⟨.minus, "-", ⟨1, 1⟩⟩, ⟨.integer, digits, ⟨1, 2⟩⟩] := by
  have divides : Divides ("-" ++ digits).toList
      [⟨[], .minus, ['-']⟩, ⟨[], .integer, digits.toList⟩] [] := by
    refine divides_cons_iff.2 ⟨digits.toList, by simp [Piece.text], by simp [AllSpace],
      .fixed .minus (by decide), ?_, divides_numeral nonempty decimal⟩
    simp [Kind.EndsBefore, Kind.ProlongedBy, Kind.IsWord]
  have tokens : (ofString ("-" ++ digits)).tokens =
      placed [] [⟨[], .minus, ['-']⟩, ⟨[], .integer, digits.toList⟩] :=
    tokens_of_divides divides rfl
  rw [tokens, placed, placed, placed, String.ofList_toList]
  rfl

end

/-! ### A literal in range -/

/-- The tokens of a proper document within the limit are parsed to its tree. -/
theorem Parsed.program_of_document {document : Document noGaps} (proper : document.Proper)
    (within : document.nesting ≤ maxNesting) (finish : Location) :
    (ofTokens maxNesting document.tokens finish).faults = [] ∧
      (ofTokens maxNesting document.tokens finish).program = document.tree := by
  have fills : Fills noGaps (fun _ => False) .full := fills_noGaps
  obtain ⟨faults, program⟩ := ofTokens_complete fills proper within finish
  rw [Program.view_full, Program.view_full] at program
  exact ⟨List.eq_nil_iff_forall_not_mem.2 faults, program⟩

/-! ### A literal that is too large -/

namespace Parser

variable {expr : Precedence → Parser Expression} {s later : State} {fault : Fault}

theorem run_operand_tooLarge (expr : Precedence → Parser Expression)
    (kind : s.current.kind = .integer)
    (large : maxInteger < numeralValue s.current.literal.toList) :
    (operand expr).run s = (.error (.tooLarge s.current), s) := by
  rw [operand, run_bind_ok _ (run_current s)]
  simp only [kind]
  rw [integer, if_neg (Nat.not_le.2 large), run_fail]

/-- A sign before an expression does not mend it. -/
theorem run_operand_negated (kind : s.current.kind = .minus)
    (broken : (expr .unary).run s.advance = (.error fault, later)) :
    (operand expr).run s = (.error fault, later) := by
  rw [operand, run_bind_ok _ (run_current s)]
  simp only [kind]
  rw [unary, run_bind_ok _ (run_advance s), run_bind_error _ broken]

/-- An expression is broken if the operand is with which it begins. -/
theorem run_expressionWithin_of_operand (levels : Nat) (bound : Precedence)
    (broken : (operand (expressionWithin levels)).run { s with nesting := s.nesting + 1 } =
      (.error fault, later)) :
    (expressionWithin (levels + 1) bound).run s =
      (.error fault, { later with nesting := later.nesting - 1 }) := by
  rw [expressionWithin, run_nested, operators, run_bind_error _ broken]

/-- A bare expression is a broken statement if it is broken. -/
theorem run_statement_of_expression (starts : s.current.kind.Starts)
    (broken : (expr .lowest).run (s.note (.began s.current)) = (.error fault, later)) :
    (statement expr).run s = (.error fault, later) := by
  rw [statement, run_bind_ok _ (run_current s), run_bind_ok _ (run_note _ s)]
  refine run_bind_error _ ?_
  rw [statementAt]
  split
  case h_1 kind => exact absurd kind starts.ne_letWord
  case h_2 kind => exact absurd kind starts.ne_returnWord
  case h_3 => exact run_bind_error _ broken

end Parser

/-- If the text ends with its first expression, and that is broken, then the one fault is all that
comes of it. -/
theorem Parsed.ofTokens_of_last_fault {limit : Nat} {tokens : List Token} {finish : Location}
    {fault : Fault} {later : State} (starts : (State.ofTokens tokens finish).current.kind.Starts)
    (broken : (Parser.expression limit .lowest).run ((State.ofTokens tokens finish).note
      (.began (State.ofTokens tokens finish).current)) = (.error fault, later))
    (none : later.faults = []) (ended : later.peek.kind = .endOfInput) :
    (ofTokens limit tokens finish).program = ⟨[]⟩ ∧
      (ofTokens limit tokens finish).faults = [fault] := by
  have begun : (State.ofTokens tokens finish).current.kind ≠ .endOfInput := by
    intro kind
    rw [kind] at starts
    exact starts
  have boundary : (later.note (.failed fault)).atBoundary 0 = true := by
    simp [State.atBoundary, ended]
  have stopped : ((later.note (.failed fault)).synchronize 0).advance.current.kind =
      .endOfInput := by
    rw [State.synchronize_of_boundary boundary]
    exact ended
  have run : (State.ofTokens tokens finish).statements limit =
      ([], (later.note (.failed fault)).advance) := by
    rw [State.statements_of_error begun (Parser.run_statement_of_expression starts broken),
      State.statements_of_end stopped, State.synchronize_of_boundary boundary]
  rw [ofTokens, State.program, run]
  refine ⟨rfl, ?_⟩
  show State.faults (later.note (.failed fault)) = [fault]
  rw [State.faults_note_failed, none, List.nil_append]

/-! ### Literals with and without a sign -/

namespace Parsed

section
variable {digits : String} (nonempty : digits ≠ "")
  (decimal : ∀ c ∈ digits.toList, c.isDigit = true)
include nonempty decimal

theorem ofString_inRange (inRange : numeralValue digits.toList ≤ maxInteger) :
    (ofString digits).faults = [] ∧ (ofString digits).program =
      ⟨[.expression ⟨.integer, digits, ⟨1, 1⟩⟩
        (.integer ⟨.integer, digits, ⟨1, 1⟩⟩ (numeralValue digits.toList))]⟩ := by
  rw [ofString, ofLexer, Lexer.tokens_numeral nonempty decimal]
  let document : Document noGaps := ⟨[⟨.bare, .numeral ⟨⟨.integer, digits, ⟨1, 1⟩⟩, rfl⟩, none⟩]⟩
  have proper : document.Proper :=
    ⟨inRange, fun _ token head => absurd head (by simp [clauseTokens]), trivial⟩
  exact program_of_document proper (show 1 ≤ maxNesting by decide) _

theorem ofString_negated_inRange (inRange : numeralValue digits.toList ≤ maxInteger) :
    (ofString ("-" ++ digits)).faults = [] := by
  rw [ofString, ofLexer, Lexer.tokens_negated nonempty decimal]
  let document : Document noGaps :=
    ⟨[⟨.bare, .unary ⟨⟨.minus, "-", ⟨1, 1⟩⟩, trivial⟩
      (.numeral ⟨⟨.integer, digits, ⟨1, 2⟩⟩, rfl⟩), none⟩]⟩
  have proper : document.Proper :=
    ⟨⟨show Precedence.unary ≤ .call by decide, inRange⟩,
      fun _ token head => absurd head (by simp [clauseTokens]), trivial⟩
  exact (program_of_document proper (show 2 ≤ maxNesting by decide) _).1

theorem ofString_tooLarge (large : maxInteger < numeralValue digits.toList) :
    (ofString digits).program = ⟨[]⟩ ∧
      (ofString digits).faults = [.tooLarge ⟨.integer, digits, ⟨1, 1⟩⟩] := by
  rw [ofString, ofLexer, Lexer.tokens_numeral nonempty decimal]
  let number : Token := ⟨.integer, digits, ⟨1, 1⟩⟩
  let start : State := ⟨[number], (Lexer.ofString digits).finish, 0, 0, [.began number]⟩
  have operand := Parser.run_operand_tooLarge (Parser.expressionWithin 127)
    (s := { start with nesting := 1 }) rfl large
  have broken : (Parser.expression maxNesting .lowest).run start =
      (.error (.tooLarge number), start) :=
    Parser.run_expressionWithin_of_operand 127 .lowest operand
  have starts : (State.ofTokens [number] start.finish).current.kind.Starts := trivial
  exact ofTokens_of_last_fault starts broken rfl rfl

theorem ofString_negated_tooLarge (large : maxInteger < numeralValue digits.toList) :
    (ofString ("-" ++ digits)).faults = [.tooLarge ⟨.integer, digits, ⟨1, 2⟩⟩] := by
  rw [ofString, ofLexer, Lexer.tokens_negated nonempty decimal]
  -- the literal is the operand of an operand, so two expressions are open when it is read
  let sign : Token := ⟨.minus, "-", ⟨1, 1⟩⟩
  let number : Token := ⟨.integer, digits, ⟨1, 2⟩⟩
  let start : State :=
    ⟨[sign, number], (Lexer.ofString ("-" ++ digits)).finish, 0, 0, [.began sign]⟩
  have operand := Parser.run_operand_tooLarge (Parser.expressionWithin 126)
    (s := { start.advance with nesting := 2 }) rfl large
  have inner := Parser.run_expressionWithin_of_operand 126 .unary operand
    (s := { start.advance with nesting := 1 })
  have outer := Parser.run_operand_negated (s := { start with nesting := 1 }) rfl inner
  have broken : (Parser.expression maxNesting .lowest).run start =
      (.error (.tooLarge number), start.advance) :=
    Parser.run_expressionWithin_of_operand 127 .lowest outer
  have starts : (State.ofTokens [sign, number] start.finish).current.kind.Starts := trivial
  exact (ofTokens_of_last_fault starts broken rfl rfl).2

end

/-- **Integer literals are exact at every length.**  A run of decimal digits is an integer literal
of its decimal value, written as it stands, if the value is below the power of two with exponent 63.
Otherwise it is no statement but one fault.  A sign before the digits makes no difference to this.
So no literal of any text has a value out of range, and the least number of 64 bits with a sign is
the value of none, with or without a sign before it. -/
theorem ofString_numeral (digits : String) (nonempty : digits ≠ "")
    (decimal : ∀ c ∈ digits.toList, c.isDigit = true) :
    let number : Token := ⟨.integer, digits, ⟨1, 1⟩⟩
    let plain := ofString digits
    let negated := ofString ("-" ++ digits)
    (decimalValue digits < 2 ^ 63 →
      plain.faults = [] ∧
        plain.program = ⟨[.expression number (.integer number (decimalValue digits))]⟩ ∧
        plain.program.render = digits) ∧
    (2 ^ 63 ≤ decimalValue digits →
      plain.program = ⟨[]⟩ ∧
        plain.faults.map (fun fault => (fault.message, fault.location)) =
          [("could not parse '" ++ digits ++ "' as integer", ⟨1, 1⟩)]) ∧
    (negated.faults = [] ↔ plain.faults = []) ∧
    (decimalValue digits = 2 ^ 63 → negated.faults ≠ []) ∧
    ∀ source, (ofString source).program.Coherent fun literal value =>
      value = decimalValue literal ∧ value < 2 ^ 63 := by
  intro number plain negated
  have small : decimalValue digits < 2 ^ 63 ↔ numeralValue digits.toList ≤ maxInteger := by
    rw [numeralValue_eq_decimalValue, le_maxInteger_iff]
  have big : 2 ^ 63 ≤ decimalValue digits ↔ maxInteger < numeralValue digits.toList := by
    rw [← Nat.not_lt, small, Nat.not_le]
  refine ⟨fun inRange => ?_, fun large => ?_, ?_, fun least => ?_, fun source => ?_⟩
  · obtain ⟨faults, program⟩ := ofString_inRange nonempty decimal (small.1 inRange)
    rw [numeralValue_eq_decimalValue] at program
    exact ⟨faults, program, by rw [program]; rfl⟩
  · obtain ⟨program, faults⟩ := ofString_tooLarge nonempty decimal (big.1 large)
    refine ⟨program, ?_⟩
    rw [faults]
    rfl
  · by_cases inRange : numeralValue digits.toList ≤ maxInteger
    · rw [ofString_negated_inRange nonempty decimal inRange,
        (ofString_inRange nonempty decimal inRange).1]
    · have large := Nat.not_le.1 inRange
      rw [ofString_negated_tooLarge nonempty decimal large,
        (ofString_tooLarge nonempty decimal large).2]
      simp
  · rw [ofString_negated_tooLarge nonempty decimal (big.1 least.ge)]
    exact List.cons_ne_nil _ _
  · have coherent := coherent_ofString source
    rwa [funext fun literal => funext fun value => propext (denotes_iff literal value)] at coherent

/-- The greatest literal, written with leading zeros, and the least number that is none. -/
theorem ofString_numeral_limits :
    ("0009223372036854775807" ≠ "" ∧
      ∀ c ∈ "0009223372036854775807".toList, c.isDigit = true) ∧
    ((ofString "0009223372036854775807").faults = [] ∧
      (ofString "0009223372036854775807").program.render = "0009223372036854775807" ∧
      (ofString "-0009223372036854775807").faults = []) ∧
    ("9223372036854775808" ≠ "" ∧ ∀ c ∈ "9223372036854775808".toList, c.isDigit = true) ∧
    (ofString "9223372036854775808").program = ⟨[]⟩ ∧
    (ofString "-9223372036854775808").faults ≠ [] := by
  have nonempty : "0009223372036854775807" ≠ "" := by decide
  have decimal : ∀ c ∈ "0009223372036854775807".toList, c.isDigit = true :=
    List.all_eq_true.1 (by decide +kernel)
  have nonempty' : "9223372036854775808" ≠ "" := by decide
  have decimal' : ∀ c ∈ "9223372036854775808".toList, c.isDigit = true :=
    List.all_eq_true.1 (by decide +kernel)
  have greatest : decimalValue "0009223372036854775807" < 2 ^ 63 := by
    rw [← le_maxInteger_iff, ← numeralValue_eq_decimalValue]
    decide +kernel
  have least : decimalValue "9223372036854775808" = 2 ^ 63 := by
    have value : numeralValue "9223372036854775808".toList = maxInteger + 1 := by decide +kernel
    rw [← numeralValue_eq_decimalValue, value, maxInteger]
    omega
  obtain ⟨inRange, -, negated, -, -⟩ := ofString_numeral _ nonempty decimal
  obtain ⟨faults, -, render⟩ := inRange greatest
  obtain ⟨-, tooLarge, -, negated', -⟩ := ofString_numeral _ nonempty' decimal'
  exact ⟨⟨nonempty, decimal⟩, ⟨faults, render, negated.2 faults⟩, ⟨nonempty', decimal'⟩,
    (tooLarge least.ge).1, negated' least⟩

end Parsed

end MonkeyLang
