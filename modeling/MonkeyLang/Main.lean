import MonkeyLang.CommandLine.Report

/-!
# The command line

The outer layer of the program: it reads files and lines, and performs what the library has decided.
-/

namespace MonkeyLang.CommandLine

/-- Performs an action on the outputs of the process; answers the failure that stops it. -/
def perform (options : Options) (out err : IO.FS.Stream) : Action → IO (Option Failure)
  | .write text => do out.putStr text; pure none
  | .flush => do out.flush; pure none
  | .log record => do err.putStr (options.logText [record]); pure none
  | .stop failure => pure (some failure)

/-- Performs a script up to the first failure. -/
def performAll (options : Options) (out err : IO.FS.Stream) : List Action → IO (Option Failure)
  | [] => pure none
  | action :: script => do
    match ← perform options out err action with
    | none => performAll options out err script
    | some failure => pure (some failure)

/-- The bytes of the input up to the next line feed, which is included. -/
partial def readBytes (input : IO.FS.Stream) (line : ByteArray) : IO ByteArray := do
  let bytes ← input.read 1
  if bytes.isEmpty then pure line
  else if bytes.data.toList = [lineFeed] then pure (line ++ bytes)
  else readBytes input (line ++ bytes)

/-- Holds a session over the lines of the input as they come. -/
partial def hold (options : Options) (config : Session.Config) (input out err : IO.FS.Stream) :
    IO (Option Failure) := do
  if let some failure ← performAll options out err (Session.ask config) then
    return some failure
  let line? := (lines (← readBytes input .empty).data.toList).head?
  let reply := Session.reply config line?
  if let some failure ← performAll options out err reply.actions then
    return some failure
  if reply.goesOn then hold options config input out err else return none

/-- The contents of a file. -/
def readFile (name : String) : IO (Except Failure ByteArray) := do
  try
    pure (.ok (← IO.FS.readBinFile name))
  catch error =>
    match error with
    | .inappropriateType .. => pure (.error .isDirectory)
    | .noFileOrDirectory .. => pure (.error .notFound)
    | other => throw other

/-- Writes a report out and gives its exit status. -/
def publish (report : Report) (out err : IO.FS.Stream) : IO UInt32 := do
  out.write report.output
  out.flush
  err.putStr report.messages
  pure report.status.toUInt32

end MonkeyLang.CommandLine

open MonkeyLang CommandLine in
/-- Runs the program. -/
def main (arguments : List String) : IO UInt32 := do
  let input ← IO.getStdin
  let out ← IO.getStdout
  let err ← IO.getStderr
  let user := userName (← IO.getEnv "USER") (← IO.getEnv "USERNAME")
  let settled (request : Request) : IO UInt32 :=
    publish (request.report ⟨fun _ => .error .notFound, .empty, user⟩) out err
  match Request.ofArguments arguments with
  | .error misuse => publish misuse.report out err
  | .ok (.work options) =>
    match options.file? with
    | some name => publish (fileReport options name (← readFile name)) out err
    | none =>
      out.putStr (greeting user)
      match ← hold options (options.session (← out.isTty)) input out err with
      | none => pure 0
      | some failure => publish (failureReport .empty "" failure) out err
  | .ok request => settled request
