import MonkeyLang.Console.Failure
import MonkeyLang.Log

/-!
# Scripts and consoles

What a program does to the outside world is described by a script, a list of `Action`s.  A `Console`
is what performs it: an output that may accept a limited number of bytes only, which keeps account
of the bytes written, of how many there were at each flush, and of the log.

Actions are performed in order up to the first failure.  A text that does not fit is written as far
as there is room, and the output has failed; a text that is empty always fits.

`run_append` says that a script may be performed in two pieces, and `perform_of_failed` that nothing
happens after a failure.
-/

namespace MonkeyLang

/-- Something that a program does to the outside world. -/
inductive Action where
  /-- Writes a text. -/
  | write (text : String)
  /-- Passes on what was written so far. -/
  | flush
  /-- Puts a record into the log. -/
  | log (record : Record)
  /-- Stops with a failure. -/
  | stop (failure : Failure)
deriving DecidableEq

/-- An output and its account. -/
structure Console where
  /-- How many bytes the output accepts, if there is a limit. -/
  capacity : Option Nat := none
  /-- The bytes written so far. -/
  bytes : ByteArray := .empty
  /-- How many bytes had been written at each flush. -/
  flushes : Array Nat := #[]
  /-- The records so far. -/
  log : Array Record := #[]
  /-- The failure that has stopped the program. -/
  failure : Option Failure := none

namespace Console

/-- Writes a text as far as there is room for it. -/
def write (console : Console) (text : String) : Console :=
  let bytes := console.bytes ++ text.toUTF8
  match console.capacity with
  | none => { console with bytes }
  | some capacity =>
    if bytes.size ≤ capacity then { console with bytes }
    else { console with bytes := bytes.extract 0 capacity, failure := some .outputFull }

/-- Performs an action, unless something has failed before. -/
def perform (console : Console) (action : Action) : Console :=
  if console.failure.isSome then console
  else
    match action with
    | .write text => console.write text
    | .flush => { console with flushes := console.flushes.push console.bytes.size }
    | .log record => { console with log := console.log.push record }
    | .stop failure => { console with failure := some failure }

/-- Performs the actions of a script one after another. -/
def run (console : Console) (script : List Action) : Console := script.foldl perform console

@[simp] theorem run_nil (console : Console) : console.run [] = console := rfl

@[simp] theorem run_cons (console : Console) (action : Action) (script : List Action) :
    console.run (action :: script) = (console.perform action).run script := rfl

theorem run_append (console : Console) (first second : List Action) :
    console.run (first ++ second) = (console.run first).run second :=
  List.foldl_append

theorem perform_of_failed {console : Console} (h : console.failure.isSome) (action : Action) :
    console.perform action = console := by
  simp [perform, h]

theorem run_of_failed {console : Console} (h : console.failure.isSome) (script : List Action) :
    console.run script = console := by
  induction script with
  | nil => rfl
  | cons action script ih => rw [run_cons, perform_of_failed h, ih]

end Console

end MonkeyLang
