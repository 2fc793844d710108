import Mathlib.Logic.Function.Iterate
import MonkeyLang.Proofs.Accounting
import MonkeyLang.Proofs.Containment

/-!
# Recovery stops at the first boundary

After a broken statement inside of `depth` braces, recovery moves on token by token and stops at the
first position, the present one included, at which such a statement may be taken to end
(`State.synchronize_skips`).  It writes nothing down, and it never leaves the block of the statement:
all braces that it closes are braces of deeper blocks, and so is every semicolon that it passes.

The reason is the same for each step (`State.le_braceDepth_advance`).  A closing brace ahead at the
depth of the block is a boundary, so the step that would close the block is not taken.  Outside of
all blocks the depth is zero, and then a brace that closes nothing is not taken either.
-/

namespace MonkeyLang

namespace State

variable {s : State} {depth n : Nat}

/-- A statement that is broken inside of `depth` braces may be taken to end here: the text is over,
or outside of all deeper blocks there is a semicolon, or a closing brace ahead. -/
def Boundary (depth : Nat) (s : State) : Prop :=
  s.current.kind = .endOfInput ∨ s.peek.kind = .endOfInput ∨
    s.braceDepth ≤ depth ∧ (s.current.kind = .semicolon ∨ s.peek.kind = .rightBrace)

theorem atBoundary_iff : s.atBoundary depth = true ↔ s.Boundary depth := by
  simp only [atBoundary, Boundary, Bool.or_eq_true, Bool.and_eq_true, decide_eq_true_eq, or_assoc]

/-! ### One step -/

/-- A closing brace is passed only inside of a deeper block. -/
theorem lt_braceDepth_of_closing (goesOn : ¬s.Boundary depth) (closes : s.peek.kind = .rightBrace) :
    depth < s.braceDepth :=
  Nat.lt_of_not_le fun level => goesOn (.inr (.inr ⟨level, .inr closes⟩))

/-- A semicolon is passed only inside of a deeper block. -/
theorem lt_braceDepth_of_semicolon (goesOn : ¬s.Boundary depth)
    (ends : s.current.kind = .semicolon) : depth < s.braceDepth :=
  Nat.lt_of_not_le fun level => goesOn (.inr (.inr ⟨level, .inl ends⟩))

/-- A step of recovery does not leave the block. -/
theorem le_braceDepth_advance (inside : depth ≤ s.braceDepth) (goesOn : ¬s.Boundary depth) :
    depth ≤ s.advance.braceDepth := by
  refine Nat.le_of_not_lt fun below => ?_
  obtain ⟨closes, level⟩ := braceStep_lt inside below
  exact absurd level (Nat.ne_of_gt (lt_braceDepth_of_closing goesOn closes))

/-! ### All steps -/

/-- From the given position, which is inside of `depth` braces, the first boundary is `n` tokens
ahead, and the way there stays inside of these braces. -/
structure Skips (depth n : Nat) (s : State) : Prop where
  /-- There is a boundary behind the tokens. -/
  stops : (advance^[n] s).Boundary depth
  /-- There is none before. -/
  first : ∀ k < n, ¬(advance^[k] s).Boundary depth
  /-- So many braces are open all the time. -/
  inside : ∀ k ≤ n, depth ≤ (advance^[k] s).braceDepth
  /-- A closing brace that is passed closes a deeper block. -/
  spares : ∀ k < n, (advance^[k] s).peek.kind = .rightBrace →
    depth < (advance^[k] s).braceDepth
  /-- A semicolon that is passed belongs to a deeper block. -/
  ignores : ∀ k < n, (advance^[k] s).current.kind = .semicolon →
    depth < (advance^[k] s).braceDepth
  /-- So the end is in the block itself, or the text is over. -/
  level : (advance^[n] s).braceDepth = depth ∨ (advance^[n] s).current.kind = .endOfInput ∨
    (advance^[n] s).peek.kind = .endOfInput

/-- At a boundary nothing is skipped. -/
theorem skips_zero (inside : depth ≤ s.braceDepth) (stops : s.Boundary depth) :
    s.Skips depth 0 where
  stops := stops
  first k below := absurd below (Nat.not_lt_zero k)
  inside k within := by rwa [Nat.le_zero.1 within]
  spares k below := absurd below (Nat.not_lt_zero k)
  ignores k below := absurd below (Nat.not_lt_zero k)
  level := by
    obtain ended | ended | ⟨level, -⟩ := stops
    · exact .inr (.inl ended)
    · exact .inr (.inr ended)
    · exact .inl (Nat.le_antisymm level inside)

/-- Where there is no boundary, one token more is skipped than from the next position on. -/
theorem Skips.succ (inside : depth ≤ s.braceDepth) (goesOn : ¬s.Boundary depth)
    (later : s.advance.Skips depth n) : s.Skips depth (n + 1) where
  stops := later.stops
  first k below := by
    cases k with
    | zero => exact goesOn
    | succ k => exact later.first k (Nat.lt_of_succ_lt_succ below)
  inside k within := by
    cases k with
    | zero => exact inside
    | succ k => exact later.inside k (Nat.le_of_succ_le_succ within)
  spares k below := by
    cases k with
    | zero => exact lt_braceDepth_of_closing goesOn
    | succ k => exact later.spares k (Nat.lt_of_succ_lt_succ below)
  ignores k below := by
    cases k with
    | zero => exact lt_braceDepth_of_semicolon goesOn
    | succ k => exact later.ignores k (Nat.lt_of_succ_lt_succ below)
  level := later.level

/-- Recovery goes on step by step to the first boundary, and it does not take more steps than there
are tokens. -/
theorem exists_skips (inside : depth ≤ s.braceDepth) :
    ∃ n ≤ s.tokens.length, s.synchronize depth = advance^[n] s ∧ s.Skips depth n := by
  fun_induction synchronize depth s with
  | case1 s boundary =>
    exact ⟨0, Nat.zero_le _, rfl, skips_zero inside (atBoundary_iff.1 boundary)⟩
  | case2 s notBoundary ih =>
    have goesOn : ¬s.Boundary depth := fun boundary => notBoundary (atBoundary_iff.2 boundary)
    have positive : 0 < s.tokens.length :=
      List.length_pos_iff.2 (s.tokens_ne_nil_of_current fun ended => goesOn (.inl ended))
    obtain ⟨n, few, same, skips⟩ := ih (le_braceDepth_advance inside goesOn)
    rw [length_advance] at few
    exact ⟨n + 1, by omega, same, skips.succ inside goesOn⟩

/-- **Recovery stops at the first boundary and never leaves its block.**  From any position inside
of `depth` braces it comes to an end after no more steps than there are tokens.  It has gone on step
by step to the first boundary, and it has written nothing down. -/
theorem synchronize_skips (s : State) {depth : Nat} (inside : depth ≤ s.braceDepth) :
    ∃ n ≤ s.tokens.length, s.synchronize depth = advance^[n] s ∧ s.Skips depth n ∧
      (s.synchronize depth).history = s.history ∧ (s.synchronize depth).faults = s.faults := by
  obtain ⟨n, few, same, skips⟩ := exists_skips inside
  have silent : (s.synchronize depth).history = s.history :=
    congrArg List.reverse (events_synchronize s depth)
  exact ⟨n, few, same, skips, silent, congrArg (List.filterMap Event.fault?) silent⟩

/-- A block with a broken statement that has a block of its own. -/
def nestedBlocks : String := "\x7b let x \x7b a; \x7d \x7d b;"

/-- Recovery passes over the inner block with its semicolon, and stops before the outer one ends. -/
theorem synchronize_skips_nestedBlocks :
    let s := (ofLexer (.ofString nestedBlocks)).advance
    1 ≤ s.braceDepth ∧
      (∃ n ≤ s.tokens.length, s.synchronize 1 = advance^[n] s ∧ s.Skips 1 n) ∧
      (s.synchronize 1).current.location = ⟨1, 14⟩ ∧
      (s.synchronize 1).peek.location = ⟨1, 16⟩ := by
  intro s
  have inside : 1 ≤ s.braceDepth := by decide +kernel
  obtain ⟨n, few, same, skips, -⟩ := s.synchronize_skips inside
  exact ⟨inside, ⟨n, few, same, skips⟩, by decide +kernel, by decide +kernel⟩

end State

end MonkeyLang
