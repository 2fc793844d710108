/-!
# Coloured text

A text is coloured by control sequences around it: one that chooses the colour of what follows, and
one that goes back to the usual colour.  They are written even around an empty text.
-/

namespace MonkeyLang

/-- A colour, as the strengths of its three components. -/
structure Color where
  /-- The strength of red, up to 255. -/
  red : Nat
  /-- The strength of green, up to 255. -/
  green : Nat
  /-- The strength of blue, up to 255. -/
  blue : Nat
deriving DecidableEq, Repr

namespace Color

/-- The colour of the prompt. -/
def prompt : Color := ⟨137, 180, 250⟩

/-- The colour of the banner over a list of faults. -/
def fault : Color := ⟨243, 139, 168⟩

/-- The colour of the kinds in a list of tokens. -/
def kind : Color := ⟨250, 179, 135⟩

/-- The control sequence that chooses a colour. -/
def select (color : Color) : String :=
  "\x1b[38;2;" ++ color.red.repr ++ ";" ++ color.green.repr ++ ";" ++ color.blue.repr ++ "m"

/-- The control sequence that goes back to the usual colour. -/
def reset : String := "\x1b[0m"

/-- A text in a colour, if colours are enabled. -/
def paint (color : Color) (enabled : Bool) (text : String) : String :=
  if enabled then color.select ++ text ++ reset else text

end Color

end MonkeyLang
