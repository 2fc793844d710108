/-!
# The arguments of a command line

Arguments are read from left to right, and the first one that settles the matter does: a request for
the version or for help is granted where it stands, and the first misuse is reported.  Options may
stand before and behind the name of the file; behind `--` every argument is a name of a file.  Short
options may be written together behind one dash.

`Request.ofArguments` is the whole rule.  A misuse is kept as its cause (`Misuse`).
-/

namespace MonkeyLang.CommandLine

/-- What is wrong with the arguments. -/
inductive Misuse where
  /-- There is no such option. -/
  | unknownOption (name : String)
  /-- A second file is named. -/
  | secondFile (name : String)
  /-- A file has the empty name. -/
  | emptyName
  /-- An option needs a value, and none follows. -/
  | missingValue (name : String)
  /-- An option that takes no value has one. -/
  | needlessValue (name : String)
  /-- An option that may be given once is given again. -/
  | repeated (name : String)
deriving DecidableEq, Repr

/-- The wording of a misuse. -/
def Misuse.message : Misuse → String
  | unknownOption name => "error: there is no option '" ++ name ++ "'"
  | secondFile name => "error: one file only can be read, and '" ++ name ++ "' is another"
  | emptyName => "error: the name of the file is empty"
  | missingValue name => "error: the option '" ++ name ++ "' needs a value"
  | needlessValue name => "error: the option '" ++ name ++ "' takes no value"
  | repeated name => "error: the option '" ++ name ++ "' can be given once only"

/-- What the arguments ask for. -/
structure Options where
  /-- The file to read; without one a session is held. -/
  file? : Option String := none
  /-- Whether a session answers with tokens. -/
  tokens : Bool := false
  /-- Whether colours are refused. -/
  noColor : Bool := false
  /-- The prompt of a session, if it is not the usual one. -/
  prompt? : Option String := none
  /-- How often more log records were asked for. -/
  verbosity : Nat := 0
  /-- Whether the log is silenced. -/
  quiet : Bool := false
deriving DecidableEq, Repr

/-- What a program is run for. -/
inductive Request where
  /-- Its work. -/
  | work (options : Options)
  /-- The number of its version. -/
  | version
  /-- An explanation of its options. -/
  | help
deriving DecidableEq, Repr

namespace Options

/-- The options with a file. -/
def withFile (options : Options) (name : String) : Except Misuse Options :=
  if options.file?.isSome then .error (.secondFile name)
  else if name.isEmpty then .error .emptyName
  else .ok { options with file? := some name }

/-- The options with a prompt. -/
def withPrompt (options : Options) (text : String) : Except Misuse Options :=
  if options.prompt?.isSome then .error (.repeated "--prompt")
  else .ok { options with prompt? := some text }

/-- The options with an answer in tokens. -/
def withTokens (options : Options) : Except Misuse Options :=
  if options.tokens then .error (.repeated "--tokens") else .ok { options with tokens := true }

/-- The options without colours. -/
def withoutColor (options : Options) : Except Misuse Options :=
  if options.noColor then .error (.repeated "--no-color")
  else .ok { options with noColor := true }

/-- The options with a silent log. -/
def silenced (options : Options) : Except Misuse Options :=
  if options.quiet then .error (.repeated "--quiet") else .ok { options with quiet := true }

/-- The options with more log records. -/
def louder (options : Options) : Options := { options with verbosity := options.verbosity + 1 }

end Options

/-- What one argument comes to: the options go on, or the request is settled. -/
inductive Progress where
  /-- The options so far. -/
  | go (options : Options)
  /-- The request, whatever follows. -/
  | settled (request : Request)

/-- The short options behind one dash. -/
def readShort (options : Options) : List Char → Except Misuse Progress
  | [] => .ok (.go options)
  | 'v' :: later => readShort options.louder later
  | 'q' :: later => do readShort (← options.silenced) later
  | 'V' :: _ => .ok (.settled .version)
  | 'h' :: _ => .ok (.settled .help)
  | c :: _ => .error (.unknownOption ("-" ++ c.toString))

/-- A long option, given by its name without the dashes and the value that is written behind an
equals sign, if there is one. -/
def readLong (options : Options) (name : List Char) (value? : Option String) :
    Except Misuse Progress :=
  let written := "--" ++ String.ofList name
  let plain (progress : Except Misuse Progress) : Except Misuse Progress :=
    if value?.isSome then .error (.needlessValue written) else progress
  match String.ofList name with
  | "tokens" => plain (.go <$> options.withTokens)
  | "no-color" => plain (.go <$> options.withoutColor)
  | "verbose" => plain (.ok (.go options.louder))
  | "quiet" => plain (.go <$> options.silenced)
  | "version" => plain (.ok (.settled .version))
  | "help" => plain (.ok (.settled .help))
  | "prompt" =>
    match value? with
    | some value => .go <$> options.withPrompt value
    | none => .error (.missingValue written)
  | _ => .error (.unknownOption written)

/-- An argument that takes nothing from the arguments behind it. -/
def readOne (options : Options) (argument : String) : Except Misuse Progress :=
  match argument.toList with
  | '-' :: '-' :: long =>
    match long.dropWhile (· ≠ '=') with
    | [] => readLong options long none
    | _ :: value => readLong options (long.takeWhile (· ≠ '=')) (some (String.ofList value))
  | '-' :: c :: short => readShort options (c :: short)
  | _ => .go <$> options.withFile argument

/-- Whether an argument can be the value of the option before it: it does not look like an option.
A dash by itself does not. -/
def isValue (argument : String) : Bool := argument = "-" || argument.toList.head? ≠ some '-'

/-- The arguments behind `--`, all of which name files. -/
def readFiles (options : Options) : List String → Except Misuse Request
  | [] => .ok (.work options)
  | name :: later => do readFiles (← options.withFile name) later

/-- The arguments from left to right. -/
def readAll (options : Options) : List String → Except Misuse Request
  | [] => .ok (.work options)
  | "--" :: later => readFiles options later
  | ["--prompt"] => .error (.missingValue "--prompt")
  | "--prompt" :: value :: later => do
    if isValue value then readAll (← options.withPrompt value) later
    else .error (.missingValue "--prompt")
  | argument :: later => do
    match ← readOne options argument with
    | .go options => readAll options later
    | .settled request => .ok request

/-- What some arguments ask for. -/
def Request.ofArguments (arguments : List String) : Except Misuse Request := readAll {} arguments

end MonkeyLang.CommandLine
