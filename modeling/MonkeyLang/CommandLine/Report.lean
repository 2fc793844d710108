import MonkeyLang.CommandLine.Options
import MonkeyLang.Console.Session

/-!
# What a run of the program reports

A run ends with a `Report`: an exit status and what was written to the two outputs.  A file is
parsed as a whole; its canonical text is the answer, or else one line for each fault that begins
with the name of the file and the place.  Without a file a greeting is written and a session is held
over the input.

Log records go to the second output, before the faults.  Warnings and errors are always wanted; each
further level has to be asked for, and a silenced log has no records at all.
-/

namespace MonkeyLang.CommandLine

/-- What a run of the program leaves behind. -/
structure Report where
  /-- The exit status. -/
  status : Nat
  /-- What was written to the output. -/
  output : ByteArray := .empty
  /-- What was written to the second output, for messages to the user. -/
  messages : String := ""

/-! ### The log -/

/-- Whether records of a level are wanted. -/
def Options.wants (options : Options) (level : Level) : Bool :=
  !options.quiet && decide (level.rank ≤ options.verbosity + 1)

/-- The wanted ones among some records, one a line. -/
def Options.logText (options : Options) (records : List Record) : String :=
  String.join <| (records.filter fun record => options.wants record.level).map fun record =>
    record.level.name ++ " " ++ record.message ++ "\n"

/-! ### The version and the options -/

/-- The name and the version of the program. -/
def versionText : String := "monkey 0.1.0\n"

/-- The explanation of the options. -/
def helpText : String :=
  "Usage: monkey [OPTIONS] [FILE]\n" ++
  "\n" ++
  "With FILE, writes the canonical text of the program in it; without, holds a session.\n" ++
  "\n" ++
  "Options:\n" ++
  "      --tokens       Answer with tokens instead of programs\n" ++
  "      --prompt <P>   Ask for a line with P\n" ++
  "      --no-color     Use no colours\n" ++
  "  -v, --verbose      Log more (-v, -vv, -vvv)\n" ++
  "  -q, --quiet        Log nothing\n" ++
  "  -h, --help         Explain the options\n" ++
  "  -V, --version      Tell the version\n"

/-! ### Reading a file -/

/-- The report that a file or the input has failed, behind the log so far. -/
def failureReport (output : ByteArray) (log : String) (failure : Failure) : Report :=
  ⟨1, output, log ++ "Error: " ++ failure.render ++ "\n"⟩

/-- The line for a fault in a file. -/
def faultLine (name : String) (fault : Fault) : String :=
  name ++ ":" ++ fault.location.render ++ ": " ++ fault.message ++ "\n"

/-- The report on a file with a given text. -/
def textReport (options : Options) (name source : String) : Report :=
  let parsed := Parsed.ofString source
  let records := ⟨.info, "parsing " ++ name⟩ :: parsed.records
  if parsed.faults.isEmpty then
    let count := parsed.program.statements.length
    let last := ⟨.info, "parsed " ++ count.repr ++ " top-level statements"⟩
    ⟨0, (parsed.program.render ++ "\n").toUTF8, options.logText (records ++ [last])⟩
  else
    ⟨1, .empty, options.logText records ++ String.join (parsed.faults.map (faultLine name))⟩

/-- The report on a file with given contents, or on a file that could not be read. -/
def fileReport (options : Options) (name : String) (contents : Except Failure ByteArray) : Report :=
  match contents with
  | .error failure => failureReport .empty "" failure
  | .ok bytes =>
    match String.fromUTF8? bytes with
    | none => failureReport .empty "" .notText
    | some source => textReport options name source

/-! ### Holding a session -/

/-- Whom to greet: the first of two names that is known, even if it is empty. -/
def userName (first? second? : Option String) : String := first?.getD (second?.getD "there")

/-- The text before a session. -/
def greeting (user : String) : String :=
  "Hello " ++ user ++ "! This is the Monkey programming language!\n" ++
  "Feel free to type in commands\n"

/-- The settings of the session that was asked for.  The output may be able to show colours. -/
def Options.session (options : Options) (colorful : Bool) : Session.Config where
  mode := if options.tokens then .tokens else .tree
  prompt := options.prompt?.getD ">> "
  color := !options.noColor && colorful

/-- The report on a session over some input, with an output that shows no colours. -/
def sessionReport (options : Options) (user : String) (input : ByteArray) : Report :=
  let console := Console.run {} [.write (greeting user)]
  let console := console.session (options.session false) input.data.toList
  let log := options.logText console.log.toList
  match console.failure with
  | none => ⟨0, console.bytes, log⟩
  | some failure => failureReport console.bytes log failure

/-! ### A whole run -/

/-- What a run of the program can see of the world. -/
structure Surroundings where
  /-- The contents of a file, by its name. -/
  contents : String → Except Failure ByteArray
  /-- The input. -/
  input : ByteArray
  /-- The name of the user. -/
  user : String

/-- The report on a request. -/
def Request.report (request : Request) (surroundings : Surroundings) : Report :=
  match request with
  | .version => ⟨0, versionText.toUTF8, ""⟩
  | .help => ⟨0, helpText.toUTF8, ""⟩
  | .work options =>
    match options.file? with
    | some name => fileReport options name (surroundings.contents name)
    | none => sessionReport options surroundings.user surroundings.input

/-- The report on a misuse. -/
def Misuse.report (misuse : Misuse) : Report := ⟨2, .empty, misuse.message ++ "\n"⟩

/-- The report on a run of the program with some arguments. -/
def report (arguments : List String) (surroundings : Surroundings) : Report :=
  match Request.ofArguments arguments with
  | .error misuse => misuse.report
  | .ok request => request.report surroundings

end MonkeyLang.CommandLine
