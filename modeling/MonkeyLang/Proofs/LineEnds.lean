import MonkeyLang.Proofs.FixedPoint
import MonkeyLang.Proofs.Layout
import MonkeyLang.Proofs.Sessions
import MonkeyLang.Proofs.TextLines

/-!
# The style of line ends

A session does the same whether its lines end with a line feed or with a carriage return and a line
feed (`Console.session_withReturns`).  Only its log may tell the difference.

A line that had carriage returns at its end has one more of them in the other style, and any other
line is the same (`lines_withReturns`).  A carriage return is white space, so the longer line has
the same tokens but for the place of the end of input.  An answer depends on the kinds and literals
of the tokens only, apart from what goes into the log (`Session.outward_answer`); and what goes into
the log does not change what is written (`Console.run_outward`).
-/

namespace MonkeyLang

/-! ### Lines -/

/-- The same input with a carriage return before every line feed. -/
def withReturns (input : List UInt8) : List UInt8 :=
  input.flatMap fun byte => if byte = lineFeed then [carriageReturn, lineFeed] else [byte]

/-- The second line is the first one, or it has one more carriage return at its end. -/
def SameButReturn (line line' : List UInt8) : Prop := line' = line ∨ line' = line ++ [carriageReturn]

theorem withReturns_of_not_mem {input : List UInt8} (h : lineFeed ∉ input) :
    withReturns input = input := by
  induction input with
  | nil => rfl
  | cons byte input ih =>
    obtain ⟨differs, h⟩ := not_or.1 (mt List.mem_cons.2 h)
    rw [withReturns, List.flatMap_cons, if_neg (Ne.symm differs), List.singleton_append]
    exact congrArg (byte :: ·) (ih h)

/-- To drop a carriage return is to take away at most that. -/
theorem sameButReturn_dropReturn (line : List UInt8) : SameButReturn (dropReturn line) line := by
  unfold dropReturn
  split
  · rename_i ends
    exact .inr (List.dropLast_append_getLast? carriageReturn ends).symm
  · exact .inl rfl

/-- The lines in the two styles are the same but for carriage returns at their ends. -/
theorem lines_withReturns (input : List UInt8) :
    List.Forall₂ SameButReturn (lines input) (lines (withReturns input)) := by
  induction length : input.length using Nat.strongRecOn generalizing input with
  | ind n ih =>
    by_cases ends : lineFeed ∈ input
    · obtain ⟨line, later, rfl, apart⟩ := List.eq_append_cons_of_mem ends
      have shorter : later.length < n := by
        rw [List.length_append, List.length_cons] at length
        omega
      have split : withReturns (line ++ lineFeed :: later) =
          (line ++ [carriageReturn]) ++ lineFeed :: withReturns later := by
        rw [withReturns, List.flatMap_append, List.flatMap_cons, if_pos rfl, List.append_assoc]
        exact congrArg (· ++ _) (withReturns_of_not_mem apart)
      have apart' : lineFeed ∉ line ++ [carriageReturn] := by
        rw [List.mem_append, List.mem_singleton]
        exact not_or.2 ⟨apart, by decide⟩
      -- only the carriage return that was put in is dropped from the second line
      have dropped : dropReturn (line ++ [carriageReturn]) = line := by
        rw [dropReturn, if_pos List.getLast?_concat, List.dropLast_concat]
      rw [split, lines_append_lineFeed apart', lines_append_lineFeed apart, dropped]
      exact .cons (sameButReturn_dropReturn line) (ih _ shorter later rfl)
    · rw [withReturns_of_not_mem ends]
      exact List.forall₂_same.2 fun line _ => .inl rfl

/-! ### Scripts -/

/-- The action does more than to put a record into the log. -/
def Action.isOutward : Action → Bool
  | .log _ => false
  | _ => true

/-- What a script does apart from the log. -/
def outward (script : List Action) : List Action := script.filter Action.isOutward

theorem outward_append (first second : List Action) :
    outward (first ++ second) = outward first ++ outward second :=
  List.filter_append first second

theorem outward_logs (records : List Record) : outward (records.map .log) = [] := by
  induction records with
  | nil => rfl
  | cons record records ih => exact ih

namespace Console

/-- The console with its log forgotten. -/
def unlogged (console : Console) : Console := { console with log := #[] }

theorem unlogged_write (console : Console) (text : String) :
    (console.write text).unlogged = console.unlogged.write text := by
  cases limited : console.capacity with
  | none => simp only [write, unlogged, limited]
  | some capacity =>
    simp only [write, unlogged, limited]
    split <;> rfl

theorem unlogged_perform (console : Console) (action : Action) :
    (console.perform action).unlogged =
      if action.isOutward then console.unlogged.perform action else console.unlogged := by
  by_cases stopped : console.failure.isSome
  · have stopped' : console.unlogged.failure.isSome := stopped
    rw [perform_of_failed stopped, perform_of_failed stopped', ite_self]
  have sound : console.failure = none := by simpa using stopped
  have sound' : console.unlogged.failure = none := sound
  rw [perform_of_sound sound, perform_of_sound sound']
  cases action with
  | write text => exact unlogged_write console text
  | flush => rfl
  | log record => rfl
  | stop failure => rfl

/-- The log plays no part in what is written and passed on. -/
theorem run_outward (console : Console) (script : List Action) :
    (console.run script).unlogged = console.unlogged.run (outward script) := by
  induction script generalizing console with
  | nil => rfl
  | cons action script ih =>
    rw [run_cons, ih, unlogged_perform, outward, outward, List.filter_cons]
    split <;> rfl

end Console

/-! ### Answers -/

/-- Tokens of the same kinds and literals are similar when the content of trees is seen. -/
theorem similar_content {tokens tokens' : List Token}
    (h : tokens.map Token.lexeme = tokens'.map Token.lexeme) :
    List.Forall₂ (Similar .content .content) tokens tokens' :=
  similar_of_lexemes (fun _ => rfl) (fun _ _ _ => rfl) (fun _ => rfl) h

/-- Over tokens of the same kinds and literals, the canonical text is the same, and so are the
messages. -/
theorem Parsed.told_ofTokens {tokens tokens' : List Token}
    (h : tokens.map Token.lexeme = tokens'.map Token.lexeme) (limit : Nat)
    (finish finish' : Location) :
    (ofTokens limit tokens' finish').program.render =
        (ofTokens limit tokens finish).program.render ∧
      (ofTokens limit tokens' finish').faults.map Fault.message =
        (ofTokens limit tokens finish).faults.map Fault.message := by
  have ends : Similar .content .content (.endOfInput finish) (.endOfInput finish') :=
    ⟨rfl, rfl, rfl, rfl, rfl⟩
  obtain ⟨program, faults⟩ := view_ofTokens (similar_content h) ends limit
  have worded : Fault.message ∘ Fault.view .content = Fault.message :=
    funext fun fault => fault.message_view fun _ => rfl
  have messages := congrArg (List.map Fault.message) faults
  rw [List.map_map, List.map_map, worded] at messages
  exact ⟨Program.render_eq_of_view program, messages⟩

namespace Session

/-- The line that lists a token of the given kind and literal. -/
def lexemeLine (color : Bool) (lexeme : Lexeme) : String :=
  Color.kind.paint color lexeme.kind.tag ++ " '" ++ String.ofList lexeme.text ++ "'\n"

theorem tokenLine_eq (color : Bool) (token : Token) :
    tokenLine color token = lexemeLine color token.lexeme := by
  rw [tokenLine, lexemeLine, Token.lexeme, String.ofList_toList]

variable (config : Config) {line line' : String}

theorem outward_evaluate (same : Lexeme.all line.toList = Lexeme.all line'.toList) :
    outward (evaluate config line) = outward (evaluate config line') := by
  have lexemes : (Lexer.ofString line).tokens.map Token.lexeme =
      (Lexer.ofString line').tokens.map Token.lexeme := by
    rw [Lexer.map_lexeme_tokens, Lexer.map_lexeme_tokens]
    exact same
  unfold evaluate
  split
  · have listed := congrArg (List.map fun lexeme => Action.write (lexemeLine config.color lexeme))
      lexemes
    simp only [List.map_map, Function.comp_def, ← tokenLine_eq] at listed
    rw [listed]
  · obtain ⟨text, messages⟩ := Parsed.told_ofTokens lexemes maxNesting
      (Lexer.ofString line).finish (Lexer.ofString line').finish
    have text : (Parsed.ofString line').program.render = (Parsed.ofString line).program.render :=
      text
    have messages : (Parsed.ofString line').faults.map Fault.message =
        (Parsed.ofString line).faults.map Fault.message := messages
    have clean : (Parsed.ofString line').faults.isEmpty = (Parsed.ofString line).faults.isEmpty := by
      rw [← List.isEmpty_map (f := Fault.message), messages, List.isEmpty_map]
    dsimp only
    rw [outward_append, outward_append, outward_logs, outward_logs, text, messages, clean]

/-- Apart from the log, the answer to a line depends on the kinds and literals of its tokens, and on
whether it is blank. -/
theorem outward_answer (blank : isBlank line = isBlank line')
    (same : Lexeme.all line.toList = Lexeme.all line'.toList) :
    outward (answer config line) = outward (answer config line') := by
  rw [answer, answer, blank]
  split
  · rfl
  · exact outward_evaluate config same

/-- A carriage return at the end of a line changes nothing. -/
theorem outward_answer_return (line : String) :
    outward (answer config (line ++ "\r")) = outward (answer config line) := by
  have chars : (line ++ "\r").toList = line.toList ++ ['\r'] := String.toList_append
  refine outward_answer config ?_ ?_
  · rw [isBlank, isBlank, chars, List.all_append]
    exact Bool.and_true _
  · rw [chars, Lexeme.all_append_spaces (by simp [isSpace])]

/-- Lines that are the same but for a carriage return at the end are both no text, or they have the
same answers but for the log. -/
theorem outward_reply {line line' : List UInt8} (same : SameButReturn line line') :
    (decode? line').map (outward ∘ answer config) =
      (decode? line).map (outward ∘ answer config) := by
  obtain rfl | rfl := same
  · rfl
  · have returned : (outward ∘ answer config) ∘ (· ++ "\r") = outward ∘ answer config :=
      funext (outward_answer_return config)
    rw [decode?_append_return, Option.map_map, returned]

/-- Over lines that are the same but for carriage returns at their ends, the scripts are the same
but for the log. -/
theorem outward_script {lines lines' : List (List UInt8)}
    (same : List.Forall₂ SameButReturn lines lines') :
    outward (script config lines') = outward (script config lines) := by
  induction same with
  | nil => rfl
  | @cons line line' lines lines' here _ ih =>
    have replies := outward_reply config here
    cases decoded : decode? line with
    | none =>
      rw [decoded, Option.map_none, Option.map_eq_none_iff] at replies
      rw [script_cons_of_notText decoded, script_cons_of_notText replies]
    | some text =>
      rw [decoded, Option.map_some, Option.map_eq_some_iff] at replies
      obtain ⟨text', decoded', reply⟩ := replies
      have reply : outward (answer config text') = outward (answer config text) := reply
      rw [script_cons_of_text decoded, script_cons_of_text decoded']
      simp only [outward_append, reply, ih]

end Session

/-! ### Whole sessions -/

/-- **The style of line ends never shows.**  Whatever the input, the settings and the output, a
session on the same input with a carriage return before every line feed writes the same bytes,
passes them on at the same places, and comes to the same end. -/
theorem Console.session_withReturns (console : Console) (config : Session.Config)
    (input : List UInt8) :
    let plain := console.session config input
    let returned := console.session config (withReturns input)
    returned.bytes = plain.bytes ∧ returned.flushes = plain.flushes ∧
      returned.failure = plain.failure := by
  intro plain returned
  have same : returned.unlogged = plain.unlogged := by
    have scripts := Session.outward_script config (lines_withReturns input)
    show (console.run _).unlogged = (console.run _).unlogged
    rw [run_outward, run_outward, scripts]
  exact ⟨(congrArg bytes same :), (congrArg flushes same :), (congrArg failure same :)⟩

/-- A line that has a carriage return at its end anyway is announced with its length, so the log is
not the same. -/
example :
    let input : List UInt8 := [0x61, carriageReturn, lineFeed]
    (({} : Console).session {} (withReturns input)).log ≠ (({} : Console).session {} input).log := by
  decide +kernel

end MonkeyLang
