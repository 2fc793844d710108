/-!
# Places in a source text

A `Location` is a line and a column, both counted from one.  A column counts characters, so a tab,
a carriage return or a character outside the basic plane takes one column, and only a line feed
starts a new line.

`Location.after` walks over a stretch of text; `after_append` says that walking over two stretches
is walking over the first and then over the second.  Places are ordered as they are reached, and
walking leads forward (`lt_after`).
-/

namespace MonkeyLang

/-- A place in a source text. -/
structure Location where
  /-- The line, counted from one. -/
  line : Nat
  /-- The column, counted from one in characters. -/
  column : Nat
deriving DecidableEq, Repr, Inhabited

namespace Location

/-- The place where every text begins. -/
def start : Location := ⟨1, 1⟩

/-- The place one character further on: a line feed leads to the next line, any other character
to the next column. -/
def next (place : Location) (c : Char) : Location :=
  if c = '\n' then ⟨place.line + 1, 1⟩ else ⟨place.line, place.column + 1⟩

/-- The place reached by walking over a stretch of text. -/
def after (place : Location) (text : List Char) : Location := text.foldl next place

@[simp] theorem after_nil (place : Location) : place.after [] = place := rfl

@[simp] theorem after_cons (place : Location) (c : Char) (text : List Char) :
    place.after (c :: text) = (place.next c).after text := rfl

@[simp] theorem after_append (place : Location) (first second : List Char) :
    place.after (first ++ second) = (place.after first).after second :=
  List.foldl_append

/-- The written form of a place, `line:column`. -/
def render (place : Location) : String := place.line.repr ++ ":" ++ place.column.repr

/-! ### The order of places -/

/-- An earlier line comes first, and on one line an earlier column. -/
instance : LT Location :=
  ⟨fun p q => p.line < q.line ∨ p.line = q.line ∧ p.column < q.column⟩

instance : LE Location := ⟨fun p q => p < q ∨ p = q⟩

instance (p q : Location) : Decidable (p < q) :=
  inferInstanceAs (Decidable (p.line < q.line ∨ p.line = q.line ∧ p.column < q.column))

instance (p q : Location) : Decidable (p ≤ q) := inferInstanceAs (Decidable (p < q ∨ p = q))

theorem lt_iff {p q : Location} :
    p < q ↔ p.line < q.line ∨ p.line = q.line ∧ p.column < q.column := Iff.rfl

protected theorem le_refl (p : Location) : p ≤ p := .inr rfl

protected theorem lt_trans {p q r : Location} (h₁ : p < q) (h₂ : q < r) : p < r := by
  rw [lt_iff] at *
  omega

protected theorem lt_of_le_of_lt {p q r : Location} (h₁ : p ≤ q) (h₂ : q < r) : p < r := by
  rcases h₁ with h₁ | rfl
  · exact Location.lt_trans h₁ h₂
  · exact h₂

protected theorem lt_of_lt_of_le {p q r : Location} (h₁ : p < q) (h₂ : q ≤ r) : p < r := by
  rcases h₂ with h₂ | rfl
  · exact Location.lt_trans h₁ h₂
  · exact h₁

protected theorem lt_irrefl (p : Location) : ¬p < p := by
  rw [lt_iff]
  omega

theorem lt_next (place : Location) (c : Char) : place < place.next c := by
  rw [lt_iff, next]
  split
  · exact .inl (Nat.lt_succ_self _)
  · exact .inr ⟨rfl, Nat.lt_succ_self _⟩

/-- Walking does not lead back. -/
theorem le_after (place : Location) (text : List Char) : place ≤ place.after text := by
  induction text generalizing place with
  | nil => exact Location.le_refl place
  | cons c text ih => exact .inl (Location.lt_of_lt_of_le (place.lt_next c) (ih (place.next c)))

/-- Walking over some text leads forward. -/
theorem lt_after (place : Location) {text : List Char} (h : text ≠ []) :
    place < place.after text := by
  cases text with
  | nil => exact absurd rfl h
  | cons c text => exact Location.lt_of_lt_of_le (place.lt_next c) (le_after _ text)

end Location

end MonkeyLang
