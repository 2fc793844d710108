import MonkeyLang.Proofs.Body
import MonkeyLang.Proofs.Climbing
import MonkeyLang.Proofs.Closing
import MonkeyLang.Proofs.Soundness

/-!
# How far an expression extends

A parser of expressions that is called with a bound takes exactly one operand for an operator of
that strength, and all of it (`Parser.expression_extent`).  What it has read in a clean run are the
tokens of a phrase that has been built up with tighter operators only, and the token ahead binds no
tighter than the bound.  The braces in the phrase match each other, so as many of them are open
behind it as before.

An operand for a weaker operator begins with the operand for a stronger one: a run with a weaker
bound does first what the run with the stronger bound does, and then it goes on with the loop over
operators.
-/

namespace MonkeyLang

variable {bound : Precedence} {s t : State}

/-- The phrase is what stands between two positions, the current tokens of both included, and it is
all that can be taken as an operand for an operator of the given strength. -/
structure Phrase.Fills (phrase : Phrase noGaps) (bound : Precedence) (s t : State) : Prop where
  /-- It has the tokens from the current one of the first position to the current one of the
  second. -/
  between : ∃ front, phrase.tokens = front ++ [t.current] ∧ s.tokens = front ++ t.tokens
  /-- Its parts are grouped as their operators bind. -/
  proper : phrase.Proper
  /-- The operators that it has been built up with bind tighter. -/
  tighter : ∀ operator ∈ phrase.spine, bound < .ofKind operator.kind
  /-- The token behind it does not. -/
  ends : .ofKind t.peek.kind ≤ bound
  /-- As many braces are open at its end as at its beginning. -/
  level : t.braceDepth = s.braceDepth

namespace State

/-- Tokens that were read up to a token that is there end with that token. -/
theorem Spans.exists_front {tokens : List Token} (spans : s.Spans tokens t) (moved : s.Reaches t)
    (notEnded : t.current.kind ≠ .endOfInput) :
    ∃ front, tokens = front ++ [t.current] ∧ s.tokens = front ++ t.tokens := by
  obtain ⟨front, split⟩ := moved.tokens_suffix
  have here : t.tokens = [t.current] ++ t.tokens.tail := spans_current notEnded
  refine ⟨front, ?_, split.symm⟩
  rw [Spans, ← split, here, ← List.append_assoc] at spans
  exact (List.append_cancel_right spans).symm

/-- A phrase closes the braces that it opens and no others. -/
theorem Spans.braceDepth {phrase : Phrase noGaps} (spans : s.Spans phrase.tokens t)
    (moved : s.Reaches t) : t.braceDepth = s.braceDepth := by
  obtain ⟨passed, split, depth⟩ := moved.exists_passed
  obtain ⟨more, tokens⟩ := phrase.tokens_eq_cons
  have same : passed = more := by
    rw [spans, tokens, List.cons_append, List.tail_cons] at split
    exact (List.append_cancel_right split).symm
  -- the first token is no brace, so the walk over the phrase is the walk over the tokens passed
  have plain := phrase.starts.ne_brace
  have balanced := phrase.depthAfter?_tokens s.braceDepth
  rw [tokens, depthAfter?_plain plain.1 plain.2] at balanced
  rw [depth, same, openAfter_of_depthAfter? balanced]

end State

namespace Parser

/-- What has been read in a clean run has been built up with operators tighter than the bound. -/
theorem exists_phrase {levels : Nat} {e : Expression}
    (read : (expressionWithin levels bound).Reads (fun _ => False) s e t) :
    ∃ phrase : Phrase noGaps, phrase.tree = e ∧ s.Spans phrase.tokens t ∧ phrase.Proper ∧
      (∀ operator ∈ phrase.spine, bound < .ofKind operator.kind) ∧
      ¬bound < .ofKind t.peek.kind := by
  cases levels with
  | zero => exact (not_reads_expressionWithin_zero read).elim
  | succ levels =>
    obtain ⟨m, inner, rfl⟩ := reads_expressionWithin.1 read
    obtain ⟨phrase, spans, rfl, proper, -, -, weak, tighter⟩ : ∃ phrase : Phrase noGaps, _ :=
      operators_sound (expressionWithin_sound levels) inner
    exact ⟨phrase, rfl, spans, proper, tighter, weak⟩

/-- **An expression is one operand, and all of it.**  If an expression is read with a bound and
nothing is written down as a fault, then it is the tree of a phrase that fills the tokens from the
first to the last that was read; the phrase has been built up with operators that bind tighter than
the bound, and the token ahead does not.  Moreover, to read an operand with the operators that bind
tighter than a weaker bound is to read first those that bind tighter than a stronger one, and to go
on from there. -/
theorem expression_extent (limit : Nat) (bound : Precedence) :
    (∀ s t e, (expression limit bound).run s = (.ok e, t) → t.faults = s.faults →
        ∃ phrase : Phrase noGaps, phrase.tree = e ∧ phrase.Fills bound s t) ∧
      ∀ (expr : Precedence → Parser Expression) (weaker : Precedence), weaker ≤ bound →
        operators expr weaker = (do
          let left ← operators expr bound
          fold expr weaker left) := by
  constructor
  · intro s t e run clean
    have read : (expressionWithin (limit - s.nesting) bound).Reads (fun _ => False) s e t :=
      ⟨run, State.adds_none_iff.2 clean⟩
    obtain ⟨phrase, tree, spans, proper, tighter, weak⟩ := exists_phrase read
    have between := spans.exists_front read.reaches (solid_of_expression run).2
    exact ⟨phrase, tree, between, proper, tighter, Nat.le_of_not_lt weak,
      spans.braceDepth read.reaches⟩
  · intro expr weaker le
    rw [operators, operators, bind_assoc]
    exact congrArg (operand expr >>= ·) (funext (fold_fold expr le))

/-- A product of a call and a function, before a comparison. -/
def productText : String := "-a(b + 1) * fn(x) \x7b x == 1 \x7d < c"

/-- With the bound of a comparison everything up to the closing brace is taken, and such an operand
begins with what is taken with the bound of a sum. -/
theorem expression_extent_product :
    let s := State.ofLexer (.ofString productText)
    let result := (expression maxNesting .comparison).run s
    (∃ e, result.1 = .ok e ∧
      ∃ phrase : Phrase noGaps, phrase.tree = e ∧ phrase.Fills .comparison s result.2) ∧
      result.2.current.location = ⟨1, 28⟩ ∧
      Precedence.comparison ≤ .sum ∧
      operators (expression maxNesting) .comparison = (do
        let left ← operators (expression maxNesting) .sum
        fold (expression maxNesting) .comparison left) := by
  intro s result
  have weaker : Precedence.comparison ≤ .sum := by decide
  have clean : result.2.faults = s.faults := by decide +kernel
  have read : result.1.isOk = true := by decide +kernel
  refine ⟨?_, by decide +kernel, weaker,
    (expression_extent maxNesting .sum).2 (expression maxNesting) .comparison weaker⟩
  cases ok : result.1 with
  | error fault =>
    rw [ok] at read
    cases read
  | ok e =>
    have run : result = (.ok e, result.2) := Prod.ext ok rfl
    exact ⟨e, rfl, (expression_extent maxNesting .comparison).1 s result.2 e run clean⟩

end Parser

end MonkeyLang
