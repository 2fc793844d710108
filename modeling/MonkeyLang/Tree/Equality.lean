import MonkeyLang.Tree.Basic

/-!
# Equality of trees

Two trees are equal if they have the same shape and carry the same tokens, names and values
throughout.  `Expression.same` and its companions run through two trees in step; the main result is
that they answer `true` exactly on equal trees (`Expression.same_iff` and so on), which makes the
equality of programs decidable.
-/

namespace MonkeyLang

mutual

/-- Whether two expressions agree throughout. -/
def Expression.same : Expression → Expression → Bool
  | .identifier a, .identifier b => decide (a = b)
  | .integer s a, .integer t b => decide (s = t) && decide (a = b)
  | .boolean s a, .boolean t b => decide (s = t) && decide (a = b)
  | .unary s p a, .unary t q b => decide (s = t) && decide (p = q) && a.same b
  | .binary s a p c, .binary t b q d =>
    decide (s = t) && decide (p = q) && a.same b && c.same d
  | .conditional s c a none, .conditional t d b none => decide (s = t) && c.same d && a.same b
  | .conditional s c a (some e), .conditional t d b (some f) =>
    decide (s = t) && c.same d && a.same b && e.same f
  | .function s p a, .function t q b => decide (s = t) && decide (p = q) && a.same b
  | .call s a p, .call t b q => decide (s = t) && a.same b && sameExpressions p q
  | _, _ => false

/-- Whether two blocks agree throughout. -/
def Block.same : Block → Block → Bool
  | ⟨s, a⟩, ⟨t, b⟩ => decide (s = t) && sameStatements a b

/-- Whether two statements agree throughout. -/
def Statement.same : Statement → Statement → Bool
  | .binding s p a, .binding t q b => decide (s = t) && decide (p = q) && a.same b
  | .result s a, .result t b => decide (s = t) && a.same b
  | .expression s a, .expression t b => decide (s = t) && a.same b
  | .block a, .block b => a.same b
  | _, _ => false

/-- Whether two lists of expressions agree throughout. -/
def sameExpressions : List Expression → List Expression → Bool
  | [], [] => true
  | a :: p, b :: q => a.same b && sameExpressions p q
  | _, _ => false

/-- Whether two lists of statements agree throughout. -/
def sameStatements : List Statement → List Statement → Bool
  | [], [] => true
  | a :: p, b :: q => a.same b && sameStatements p q
  | _, _ => false

end

mutual

theorem Expression.same_iff : ∀ a b : Expression, a.same b = true ↔ a = b
  | .identifier _, b => by cases b <;> simp [Expression.same]
  | .integer _ _, b => by cases b <;> simp [Expression.same]
  | .boolean _ _, b => by cases b <;> simp [Expression.same]
  | .unary _ _ a, b => by cases b <;> simp [Expression.same, Expression.same_iff a, and_assoc]
  | .binary _ l _ r, b => by
    cases b <;> simp [Expression.same, Expression.same_iff l, Expression.same_iff r, and_assoc]
    grind
  | .conditional _ c t none, b => by
    cases b with
    | conditional _ _ _ e =>
      cases e <;> simp [Expression.same, Expression.same_iff c, Block.same_iff t, and_assoc]
    | _ => simp [Expression.same]
  | .conditional _ c t (some e), b => by
    cases b with
    | conditional _ _ _ f =>
      cases f <;>
        simp [Expression.same, Expression.same_iff c, Block.same_iff t, Block.same_iff e, and_assoc]
    | _ => simp [Expression.same]
  | .function _ _ body, b => by
    cases b <;> simp [Expression.same, Block.same_iff body, and_assoc]
  | .call _ f args, b => by
    cases b <;>
      simp [Expression.same, Expression.same_iff f, sameExpressions_iff args, and_assoc]
termination_by structural expression => expression

theorem Block.same_iff : ∀ a b : Block, a.same b = true ↔ a = b
  | ⟨_, statements⟩, ⟨_, _⟩ => by simp [Block.same, sameStatements_iff statements]
termination_by structural block => block

theorem Statement.same_iff : ∀ a b : Statement, a.same b = true ↔ a = b
  | .binding _ _ a, b => by cases b <;> simp [Statement.same, Expression.same_iff a, and_assoc]
  | .result _ a, b => by cases b <;> simp [Statement.same, Expression.same_iff a]
  | .expression _ a, b => by cases b <;> simp [Statement.same, Expression.same_iff a]
  | .block a, b => by cases b <;> simp [Statement.same, Block.same_iff a]
termination_by structural statement => statement

theorem sameExpressions_iff : ∀ p q : List Expression, sameExpressions p q = true ↔ p = q
  | [], q => by cases q <;> simp [sameExpressions]
  | a :: p, q => by
    cases q <;> simp [sameExpressions, Expression.same_iff a, sameExpressions_iff p]
termination_by structural expressions => expressions

theorem sameStatements_iff : ∀ p q : List Statement, sameStatements p q = true ↔ p = q
  | [], q => by cases q <;> simp [sameStatements]
  | a :: p, q => by
    cases q <;> simp [sameStatements, Statement.same_iff a, sameStatements_iff p]
termination_by structural statements => statements

end

instance : DecidableEq Expression := fun a b => decidable_of_iff _ (Expression.same_iff a b)

instance : DecidableEq Block := fun a b => decidable_of_iff _ (Block.same_iff a b)

instance : DecidableEq Statement := fun a b => decidable_of_iff _ (Statement.same_iff a b)

instance : DecidableEq Program := fun p q =>
  decidable_of_iff (p.statements = q.statements) (by cases p; cases q; simp)

end MonkeyLang
