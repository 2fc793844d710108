import MonkeyLang.Proofs.FixedPoint

/-!
# Canonical texts tell programs apart

Two programs have the same canonical text only if they are the same but for the places of tokens and
the tokens of bare statements (`canonicalText_eq_iff`), however deep they are.

Beyond the limit of the parser the canonical text is not parsed back, so the parser with this limit
is no inverse of the printer.  But the limit is a parameter.  For two given documents there is a
limit that neither of them exceeds, and with it the parser makes out of their tokens the tree of the
one and of the other (`Document.view_tree_of_lexemes`).  The tokens of the documents by which two
programs are written are read from their canonical texts, whatever the depth.

Programs beyond the limit do come of parsing: sums group to the left, so a sum of any length is
parsed without fault, while its canonical text has a parenthesis for each sign
(`Parsed.faults_sumText`).
-/

namespace MonkeyLang

/-! ### Any depth -/

/-- Proper documents with the same kinds and spellings of tokens have trees of the same content. -/
theorem Document.view_tree_of_lexemes {first second : Document noGaps} (proper : first.Proper)
    (proper' : second.Proper)
    (same : first.tokens.map Token.lexeme = second.tokens.map Token.lexeme) :
    first.tree.view .content = second.tree.view .content := by
  -- a limit that neither of the documents exceeds
  have within : first.nesting ≤ max first.nesting second.nesting := Nat.le_max_left _ _
  have within' : second.nesting ≤ max first.nesting second.nesting := Nat.le_max_right _ _
  have one := (Parsed.ofTokens_of_lexemes proper within rfl .start).2
  have other := (Parsed.ofTokens_of_lexemes proper' within' same .start).2
  exact one.symm.trans other

/-- Coherent programs with the same canonical text have the same content. -/
theorem Program.view_eq_of_render {p q : Program} (h : p.Coherent Denotes)
    (h' : q.Coherent Denotes) (same : p.render = q.render) :
    p.view .content = q.view .content := by
  have tokens : (p.document h).tokens.map Token.lexeme =
      (q.document h').tokens.map Token.lexeme := by
    rw [← p.all_render h, same, q.all_render h']
  have trees := Document.view_tree_of_lexemes (p.proper_document h) (q.proper_document h') tokens
  rwa [p.view_document View.content_blind h, q.view_document View.content_blind h'] at trees

/-! ### Sums of any length -/

/-- A sum of ones with so many signs. -/
def sumText : Nat → String
  | 0 => "1"
  | n + 1 => sumText n ++ "+1"

/-- The number in these sums. -/
def Phrase.one : Phrase noGaps := .numeral ⟨⟨.integer, "1", .start⟩, rfl⟩

/-- The sum as it is written, grouped to the left. -/
def Phrase.sum : Nat → Phrase noGaps
  | 0 => .one
  | n + 1 => .binary (sum n) ⟨Kind.plus.sign.token, trivial⟩ .one

/-- Its one token is as it is read from a text. -/
theorem Phrase.whole_one : ∀ token ∈ one.tokens, token.lexeme.Whole := by
  intro token member
  obtain rfl := List.mem_singleton.1 member
  exact Lexer.whole_of_mem_tokens (.ofString "1") _ (by decide +kernel)

theorem Phrase.spells_one : Spells ['1'] one.tokens :=
  spells_token (whole_one _ List.mem_cons_self)

theorem Phrase.spells_sum (n : Nat) : Spells (sumText n).toList (sum n).tokens := by
  induction n with
  | zero => exact spells_one
  | succ n ih =>
    have sign : Spells ['+', '1'] (Kind.plus.sign.token :: one.tokens) :=
      spells_one.mark rfl (by decide)
    rw [sumText, String.toList_append]
    exact ih.append (Lexeme.breaks_cons _ (by decide)) sign

theorem Phrase.proper_sum (n : Nat) : .sum ≤ (sum n).strength ∧ (sum n).Proper := by
  have proper : one.Proper := show numeralValue ['1'] ≤ maxInteger by decide
  cases n with
  | zero => exact ⟨by decide, proper⟩
  | succ n =>
    obtain ⟨strength, left⟩ := proper_sum n
    exact ⟨Nat.le_refl _, strength, by decide, left, proper⟩

/-- A right operand is all that opens another expression. -/
theorem Phrase.nesting_sum (n : Nat) : (sum n).nesting ≤ 2 := by
  induction n with
  | zero => decide
  | succ n ih => exact Nat.max_le.2 ⟨ih, Nat.le_refl _⟩

theorem Phrase.coherent_sum (n : Nat) : (sum n).tree.Coherent Denotes := by
  have coherent : one.tree.Coherent Denotes := by
    refine ⟨⟨whole_one _ List.mem_cons_self, rfl⟩, ?_, rfl⟩
    show numeralValue ['1'] ≤ maxInteger
    decide
  induction n with
  | zero => exact coherent
  | succ n ih => exact ⟨⟨Kind.whole_text (by decide), trivial⟩, rfl, ih, coherent⟩

theorem Phrase.lt_depth_sum (n : Nat) : n < (sum n).tree.depth := by
  induction n with
  | zero => exact Expression.depth_pos _
  | succ n ih =>
    show n + 1 < 1 + max (sum n).tree.depth (1 + one.tree.depth)
    omega

/-- Every sum is parsed without fault, but the canonical text of a long one is not. -/
theorem Parsed.faults_sumText (n : Nat) :
    (ofString (sumText n)).faults = [] ∧
      (maxNesting ≤ n → (ofString (canonicalText (sumText n))).faults ≠ []) := by
  let document : Document noGaps := ⟨[⟨.bare, .sum n, none⟩]⟩
  have proper : document.Proper :=
    ⟨(Phrase.proper_sum n).2, fun _ token head => absurd head (by simp [clauseTokens]), trivial⟩
  have within : document.nesting ≤ maxNesting :=
    Nat.max_le.2 ⟨Nat.le_trans (Phrase.nesting_sum n) (by decide), Nat.zero_le _⟩
  have tokens : (Lexer.ofString (sumText n)).tokens.map Token.lexeme =
      document.tokens.map Token.lexeme := by
    have read := Phrase.spells_sum n Lexeme.breaks_nil
    rw [List.append_nil, Lexeme.all_nil, List.append_nil] at read
    rw [Lexer.map_lexeme_tokens, Lexer.ofString]
    simpa [document, Document.tokens, clauseTokens, Clause.tokens, Lead.tokens] using read
  obtain ⟨clean, content⟩ : (ofString (sumText n)).faults = [] ∧
      (ofString (sumText n)).program.view .content = document.tree.view .content :=
    ofTokens_of_lexemes proper within tokens _
  refine ⟨clean, fun long again => ?_⟩
  -- the canonical text is that of the document, whose value is too deep
  have coherent : document.tree.Coherent Denotes := ⟨Phrase.coherent_sum n, trivial⟩
  rw [canonicalText, Program.render_eq_of_view content] at again
  have shallow := document.tree.depth_le_of_clean coherent again _ List.mem_cons_self
  exact absurd (Nat.lt_of_le_of_lt long (Phrase.lt_depth_sum n)) (Nat.not_lt.2 shallow)

/-! ### Texts and programs -/

/-- **Canonical texts tell programs apart.**  The canonical texts of two source texts, with or
without faults, are the same just if their programs are the same but for the places of tokens and
the tokens of bare statements.  There is no limit to the depth; and there are texts without fault
whose canonical text is too deep to be parsed back. -/
theorem canonicalText_eq_iff :
    (∀ source source' : String, canonicalText source = canonicalText source' ↔
        (Parsed.ofString source).program.view .content =
          (Parsed.ofString source').program.view .content) ∧
      ∃ source, (Parsed.ofString source).faults = [] ∧
        (Parsed.ofString (canonicalText source)).faults ≠ [] := by
  refine ⟨fun source source' => ⟨fun same => ?_, Program.render_eq_of_view⟩, ?_⟩
  · have coherent : (Parsed.ofString source).program.Coherent Denotes :=
      Parsed.coherent_ofString source
    have coherent' : (Parsed.ofString source').program.Coherent Denotes :=
      Parsed.coherent_ofString source'
    exact Program.view_eq_of_render coherent coherent' same
  · obtain ⟨clean, broken⟩ := Parsed.faults_sumText maxNesting
    exact ⟨sumText maxNesting, clean, broken (Nat.le_refl _)⟩

end MonkeyLang
