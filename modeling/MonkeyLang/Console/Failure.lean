/-!
# Failures of input and output

The ways in which a stream or a file can fail.  A failure has a `kind` and a `message`; one that the
operating system reports has a number as well (`code?`).  `Failure.render` is its written form.
-/

namespace MonkeyLang

/-- A failure of input or output. -/
inductive Failure where
  /-- The output accepts no more bytes. -/
  | outputFull
  /-- The bytes of the input are not UTF-8. -/
  | notText
  /-- There is no file of that name. -/
  | notFound
  /-- The name belongs to a directory. -/
  | isDirectory
deriving DecidableEq, Repr

namespace Failure

/-- The class of a failure, in one word. -/
def kind : Failure → String
  | outputFull => "WriteZero"
  | notText => "InvalidData"
  | notFound => "NotFound"
  | isDirectory => "IsADirectory"

/-- What has failed. -/
def message : Failure → String
  | outputFull => "failed to write whole buffer"
  | notText => "stream did not contain valid UTF-8"
  | notFound => "No such file or directory"
  | isDirectory => "Is a directory"

/-- The number under which the operating system reports a failure. -/
def code? : Failure → Option Nat
  | outputFull | notText => none
  | notFound => some 2
  | isDirectory => some 21

/-- The written form of a failure. -/
def render (failure : Failure) : String :=
  let described := "kind: " ++ failure.kind ++ ", message: \"" ++ failure.message ++ "\" \x7d"
  match failure.code? with
  | none => "Error \x7b " ++ described
  | some code => "Os \x7b code: " ++ code.repr ++ ", " ++ described

end Failure

end MonkeyLang
