import MonkeyLang.Parser.Program

/-!
# Log records

While a program works it tells what it does in `Record`s, one line of text each with a level that
says how much it matters.  `Event.record?` is the record of something that happened while parsing.
-/

namespace MonkeyLang

/-- How much a record matters; the first level matters most. -/
inductive Level where
  | error
  | warn
  | info
  | debug
  | trace
deriving DecidableEq, Repr

namespace Level

/-- The name of a level. -/
def name : Level → String
  | error => "ERROR"
  | warn => "WARN"
  | info => "INFO"
  | debug => "DEBUG"
  | trace => "TRACE"

/-- The number of levels that matter more. -/
def rank : Level → Nat
  | error => 0
  | warn => 1
  | info => 2
  | debug => 3
  | trace => 4

end Level

/-- One line of a log. -/
structure Record where
  /-- How much the record matters. -/
  level : Level
  /-- What it says. -/
  message : String
deriving DecidableEq, Repr

/-- The record of something that happened while parsing, if it is told at all. -/
def Event.record? : Event → Option Record
  | .began token =>
    some ⟨.trace, "statement at " ++ token.location.render ++ ": " ++ token.description⟩
  | .completed => none
  | .failed fault =>
    some ⟨.debug, "parse error at " ++ fault.location.render ++ ": " ++ fault.message⟩

/-- The records of parsing a text. -/
def Parsed.records (parsed : Parsed) : List Record := parsed.history.filterMap Event.record?

end MonkeyLang
