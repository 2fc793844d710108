import MonkeyLang.Console.Basic
import MonkeyLang.Console.Color
import MonkeyLang.Text.Blank
import MonkeyLang.Text.Lines
import MonkeyLang.Tree.Canonical

/-!
# Interactive sessions

A session asks for one line after another and answers each by itself, with a list of its tokens or
with the canonical text of the program that it holds.  A program with faults is answered by a banner
and the list of the faults instead.  Blank lines get no answer.

A session goes round by round.  Each round begins with the prompt (`Session.ask`), and what comes
next depends on what is read (`Session.reply`): a line of text is answered, and the session goes on;
it ends at the end of input or at the first line that is not text.  `Session.script` is the script
of a whole session over the lines of its input.
-/

namespace MonkeyLang

namespace Session

/-! ### Settings -/

/-- What a session answers to a line. -/
inductive Mode where
  /-- The tokens, one a line. -/
  | tokens
  /-- The canonical text of the program. -/
  | tree
deriving DecidableEq, Repr

/-- The name of a mode. -/
def Mode.name : Mode → String
  | .tokens => "Tokens"
  | .tree => "Ast"

/-- The settings of a session. -/
structure Config where
  /-- What is answered. -/
  mode : Mode := .tree
  /-- The text that asks for a line. -/
  prompt : String := ">> "
  /-- Whether to use colours. -/
  color : Bool := false
deriving DecidableEq, Repr

/-! ### Answers -/

/-- The picture over a list of faults. -/
def face : String :=
  "            __,__\n" ++
  "   .--.  .-\"     \"-.  .--.\n" ++
  "  / .. \\/  .-. .-.  \\/ .. \\\n" ++
  " | |  '|  /   Y   \\  |'  | |\n" ++
  " | \\   \\  \\ 0 | 0 /  /   / |\n" ++
  "  \\ '- ,\\.-\"\"\"\"\"\"\"-./, -' /\n" ++
  "   ''-' /_   ^ ^   _\\ '-''\n" ++
  "       |  \\._   _./  |\n" ++
  "       \\   \\ '~' /   /\n" ++
  "        '._ '-=-' _.'\n" ++
  "           '-----'\n"

/-- The banner and the given messages, one a line behind a tab. -/
def complaint (color : Bool) (messages : List String) : List Action :=
  [.write (Color.fault.paint color face),
    .write "Woops! We ran into some monkey business here!\n",
    .write " parser errors:\n"] ++
  messages.map fun message => .write ("\t" ++ message ++ "\n")

/-- The line that lists a token. -/
def tokenLine (color : Bool) (token : Token) : String :=
  Color.kind.paint color token.kind.tag ++ " '" ++ token.literal ++ "'\n"

/-- The answer to a line that is not blank. -/
def evaluate (config : Config) (line : String) : List Action :=
  match config.mode with
  | .tokens => (Lexer.ofString line).tokens.map fun token => .write (tokenLine config.color token)
  | .tree =>
    let parsed := Parsed.ofString line
    parsed.records.map .log ++
      if parsed.faults.isEmpty then [.write (parsed.program.render ++ "\n")]
      else complaint config.color (parsed.faults.map Fault.message)

/-- The record that announces the answer to a line. -/
def announcement (config : Config) (line : String) : Record :=
  ⟨.debug, "evaluating line (" ++ line.utf8ByteSize.repr ++ " bytes) in " ++ config.mode.name ++
    " mode"⟩

/-- The answer to any line. -/
def answer (config : Config) (line : String) : List Action :=
  if isBlank line then [] else .log (announcement config line) :: evaluate config line

/-! ### The course of a session -/

/-- Asks for a line. -/
def ask (config : Config) : List Action :=
  [.write (Color.prompt.paint config.color config.prompt), .flush]

/-- The record of the end of a session. -/
def farewell : Record := ⟨.debug, "end of input, leaving repl"⟩

/-- What a session does in return for what it has read. -/
structure Reply where
  /-- What is done at once. -/
  actions : List Action
  /-- Whether another line is asked for behind it. -/
  goesOn : Bool

/-- The reply to a line, or to the end of input if there is none. -/
def reply (config : Config) : Option (List UInt8) → Reply
  | none => ⟨[.log farewell], false⟩
  | some line =>
    match decode? line with
    | none => ⟨[.stop .notText], false⟩
    | some text => ⟨answer config text, true⟩

/-- A session over some lines. -/
def script (config : Config) : List (List UInt8) → List Action
  | [] => ask config ++ (reply config none).actions
  | line :: later =>
    let reply := reply config (some line)
    ask config ++ (reply.actions ++ if reply.goesOn then script config later else [])

theorem script_cons_of_text {config : Config} {line : List UInt8} {text : String}
    (decoded : decode? line = some text) (later : List (List UInt8)) :
    script config (line :: later) = ask config ++ (answer config text ++ script config later) := by
  simp [script, reply, decoded]

theorem script_cons_of_notText {config : Config} {line : List UInt8} (decoded : decode? line = none)
    (later : List (List UInt8)) :
    script config (line :: later) = ask config ++ [.stop .notText] := by
  simp [script, reply, decoded]

end Session

/-- Performs a session over the lines of some input. -/
def Console.session (console : Console) (config : Session.Config) (input : List UInt8) : Console :=
  console.run (Session.script config (lines input))

end MonkeyLang
