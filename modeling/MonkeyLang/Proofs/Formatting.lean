import MonkeyLang.Proofs.OneLine
import MonkeyLang.Proofs.Sessions
import MonkeyLang.Proofs.TextLines

/-!
# Sessions as a formatter

Without a prompt and without colours, a session that answers with canonical texts formats its input:
it writes the canonical text of each line that is not blank, one a line, and nothing else.  If none
of these lines has a fault, and neither has its canonical text, then to format what was written
changes nothing (`Console.session_formatted`).

All lines of a text are texts (`exists_lines_bytesOf`), so the session comes to its end, and what an
output without a limit gets is all that the script writes (`Open.bytes_run`).  Canonical texts stand
on one line each and are not blank, so they are the lines of the output (`lines_bytesOf_unlines`),
and each is its own canonical text: it is formatted (`formatted_canonicalText`), and a session over
lines that are formatted writes them back (`Console.session_of_formatted`).
-/

namespace MonkeyLang

/-- Where the canonical text is parsed without fault, it is the canonical text of itself. -/
theorem canonicalText_canonicalText {source : String}
    (clean : (Parsed.ofString (canonicalText source)).faults = []) :
    canonicalText (canonicalText source) = canonicalText source := by
  have coherent : (Parsed.ofString source).program.Coherent Denotes :=
    Parsed.coherent_ofString source
  have within := Program.depth_le_of_clean _ coherent clean
  exact Program.render_eq_of_view (Program.ofString_render _ coherent within).2

/-- A line that formatting leaves as it is. -/
structure Formatted (line : String) : Prop where
  oneLine : OneLine line
  nonBlank : isBlank line = false
  clean : (Parsed.ofString line).faults = []
  fixed : canonicalText line = line

/-- The canonical text of a line is formatted, if neither of them has a fault. -/
theorem formatted_canonicalText {source : String} (nonBlank : isBlank source = false)
    (clean : (Parsed.ofString source).faults = [])
    (again : (Parsed.ofString (canonicalText source)).faults = []) :
    Formatted (canonicalText source) where
  oneLine := Program.oneLine_render _ (Parsed.coherent_ofString source)
  nonBlank := Program.isBlank_render (Parsed.coherent_ofString source)
    (Parsed.statements_ne_nil nonBlank clean)
  clean := again
  fixed := canonicalText_canonicalText again

/-! ### What a script writes -/

/-- All that a script writes, one text behind the other. -/
def written : List Action → String
  | [] => ""
  | .write text :: script => text ++ written script
  | .flush :: script | .log _ :: script | .stop _ :: script => written script

theorem written_append (first second : List Action) :
    written (first ++ second) = written first ++ written second := by
  induction first with
  | nil => rw [List.nil_append, written, String.empty_append]
  | cons action first ih => cases action <;> simp [written, ih, String.append_assoc]

theorem written_logs (records : List Record) : written (records.map .log) = "" := by
  induction records with
  | nil => rfl
  | cons record records ih => exact ih

/-- An output without a limit gets all that a script writes, if that does not end the program. -/
theorem Console.Open.bytes_run {console : Console} (h : console.Open) {script : List Action}
    (proceeds : ∀ action ∈ script, action.Proceeds) :
    (console.run script).bytes = console.bytes ++ (written script).toUTF8 := by
  induction script generalizing console with
  | nil => simp [written]
  | cons action script ih =>
    obtain ⟨here, later⟩ := List.forall_mem_cons.1 proceeds
    have opened : (console.run [action]).Open := h.run (List.forall_mem_singleton.2 here)
    have opened : (console.perform action).Open := opened
    rw [run_cons, ih opened later, perform_of_sound h.failure]
    cases action with
    | write text => simp [write, h.capacity, written, ByteArray.append_assoc]
    | flush => rfl
    | log record => rfl
    | stop failure => exact here.elim

namespace Session

/-- The settings of a session that writes nothing but answers. -/
def formatting : Config := { mode := .tree, prompt := "", color := false }

/-- The lines of an input that are text and not blank. -/
def nonBlankLines (input : List UInt8) : List String :=
  ((lines input).filterMap decode?).filter (!isBlank ·)

theorem nonBlankLines_of_lines {input : List UInt8} {texts : List String}
    (same : lines input = texts.map bytesOf) : nonBlankLines input = texts.filter (!isBlank ·) := by
  rw [nonBlankLines, same, List.filterMap_map]
  have decoded : decode? ∘ bytesOf = some := funext decode?_bytesOf
  rw [decoded, List.filterMap_some]

/-- The answer to a line without fault is its canonical text. -/
theorem written_answer {config : Config} {line : String} (tree : config.mode = .tree)
    (nonBlank : isBlank line = false) (clean : (Parsed.ofString line).faults = []) :
    written (answer config line) = canonicalText line ++ "\n" := by
  have evaluated : evaluate config line =
      (Parsed.ofString line).records.map .log ++ [.write (canonicalText line ++ "\n")] := by
    rw [evaluate, tree]
    show _ ++ (if (Parsed.ofString line).faults.isEmpty then _ else _) = _
    rw [clean]
    rfl
  rw [answer, nonBlank, if_neg Bool.false_ne_true, written, evaluated, written_append,
    written_logs, String.empty_append, written, written, String.append_empty]

/-- A session over lines of text does not end before their end. -/
theorem proceeds_script (config : Config) (texts : List String) :
    ∀ action ∈ script config (texts.map bytesOf), action.Proceeds := by
  have asks : ∀ action ∈ ask config, action.Proceeds := by simp [ask, Action.Proceeds]
  induction texts with
  | nil => exact List.forall_mem_append.2 ⟨asks, List.forall_mem_singleton.2 trivial⟩
  | cons text texts ih =>
    rw [List.map_cons, script_cons_of_text (decode?_bytesOf text)]
    exact List.forall_mem_append.2
      ⟨asks, List.forall_mem_append.2 ⟨proceeds_answer config text, ih⟩⟩

/-- A session over lines without fault writes their canonical texts, one a line. -/
theorem written_script {texts : List String}
    (clean : ∀ text ∈ texts, isBlank text = false → (Parsed.ofString text).faults = []) :
    written (script formatting (texts.map bytesOf)) =
      unlines ((texts.filter (!isBlank ·)).map canonicalText) := by
  induction texts with
  | nil => rfl
  | cons text texts ih =>
    obtain ⟨here, later⟩ := List.forall_mem_cons.1 clean
    have asked : written (ask formatting) = "" := rfl
    rw [List.map_cons, script_cons_of_text (decode?_bytesOf text), written_append, asked,
      String.empty_append, written_append, ih later]
    cases blank : isBlank text with
    | true => simp [answer, blank, written]
    | false =>
      rw [written_answer rfl blank (here blank)]
      simp [blank, unlines]

end Session

namespace Console

open Session

/-- A session over lines without fault comes to its end and formats them. -/
theorem session_of_lines {input : List UInt8} {texts : List String}
    (same : lines input = texts.map bytesOf)
    (clean : ∀ text ∈ texts, isBlank text = false → (Parsed.ofString text).faults = []) :
    (({} : Console).session formatting input).failure = none ∧
      (({} : Console).session formatting input).bytes =
        (unlines ((texts.filter (!isBlank ·)).map canonicalText)).toUTF8 := by
  have fresh : ({} : Console).Open := ⟨rfl, rfl⟩
  have proceeds := proceeds_script formatting texts
  rw [session, same]
  refine ⟨(fresh.run proceeds).failure, ?_⟩
  rw [fresh.bytes_run proceeds, written_script clean]
  exact ByteArray.empty_append

/-- A session over lines that are formatted writes them back. -/
theorem session_of_formatted {texts : List String} (h : ∀ text ∈ texts, Formatted text) :
    let console := ({} : Console).session formatting (bytesOf (unlines texts))
    console.failure = none ∧ console.bytes = (unlines texts).toUTF8 ∧
      nonBlankLines (bytesOf (unlines texts)) = texts := by
  intro console
  have same : lines (bytesOf (unlines texts)) = texts.map bytesOf :=
    lines_bytesOf_unlines fun text member => (h text member).oneLine.not_mem
  have nonBlank : texts.filter (!isBlank ·) = texts :=
    List.filter_eq_self.2 fun text member => by rw [(h text member).nonBlank]; rfl
  have fixed : texts.map canonicalText = texts :=
    (List.map_congr_left fun text member => (h text member).fixed).trans (List.map_id' _)
  obtain ⟨sound, bytes⟩ := session_of_lines same fun text member _ => (h text member).clean
  rw [nonBlank, fixed] at bytes
  exact ⟨sound, bytes, (nonBlankLines_of_lines same).trans nonBlank⟩

/-- **A session formats its input, and to format what it has written changes nothing.**  Let all
lines of a text that are not blank be parsed without fault, and their canonical texts, too.  Then
the session on the text comes to its end, and the session on its output comes to its end and has the
same output.  The lines of the output that are not blank are the canonical texts of the lines of the
text that are not blank. -/
theorem session_formatted (text : String)
    (clean : ∀ line ∈ nonBlankLines (bytesOf text),
      (Parsed.ofString line).faults = [] ∧ (Parsed.ofString (canonicalText line)).faults = []) :
    let once := ({} : Console).session formatting (bytesOf text)
    let twice := ({} : Console).session formatting once.bytes.data.toList
    once.failure = none ∧ twice.failure = none ∧ twice.bytes = once.bytes ∧
      nonBlankLines once.bytes.data.toList =
        (nonBlankLines (bytesOf text)).map canonicalText := by
  intro once twice
  obtain ⟨texts, same⟩ := exists_lines_bytesOf text
  rw [nonBlankLines_of_lines same] at clean ⊢
  obtain ⟨sound, bytes⟩ := session_of_lines same fun line member nonBlank =>
    (clean line (List.mem_filter.2 ⟨member, by rw [nonBlank]; rfl⟩)).1
  have formatted : ∀ line ∈ (texts.filter (!isBlank ·)).map canonicalText, Formatted line := by
    intro line member
    obtain ⟨source, among, rfl⟩ := List.mem_map.1 member
    obtain ⟨faultless, again⟩ := clean source among
    exact formatted_canonicalText (by simpa using (List.mem_filter.1 among).2) faultless again
  have output : once.bytes.data.toList =
      bytesOf (unlines ((texts.filter (!isBlank ·)).map canonicalText)) :=
    congrArg (·.data.toList) bytes
  obtain ⟨sound', bytes', nonBlank⟩ := session_of_formatted formatted
  rw [← output] at sound' bytes' nonBlank
  exact ⟨sound, sound', bytes'.trans bytes.symm, nonBlank⟩

/-- Blank lines are left out, be they blank to the lexer or not, and so is a carriage return. -/
theorem session_formatted_lines :
    let text := "1+2*3;x\r\n \u3000\nif(a)\x7bfn(b)\x7bb\x7d\x7d"
    let once := ({} : Console).session formatting (bytesOf text)
    let twice := ({} : Console).session formatting once.bytes.data.toList
    nonBlankLines (bytesOf text) = ["1+2*3;x", "if(a)\x7bfn(b)\x7bb\x7d\x7d"] ∧
      twice.bytes = once.bytes ∧
      nonBlankLines once.bytes.data.toList =
        ["(1 + (2 * 3)); x", "if (a) \x7b fn(b) \x7b b \x7d \x7d"] := by
  intro text once twice
  have found : nonBlankLines (bytesOf text) = ["1+2*3;x", "if(a)\x7bfn(b)\x7bb\x7d\x7d"] := by
    decide +kernel
  have clean : ∀ line ∈ nonBlankLines (bytesOf text),
      (Parsed.ofString line).faults = [] ∧ (Parsed.ofString (canonicalText line)).faults = [] := by
    rw [found]
    decide +kernel
  obtain ⟨-, -, same, formatted⟩ := session_formatted text clean
  rw [found] at formatted
  exact ⟨found, same, formatted.trans (by decide +kernel)⟩

end Console

end MonkeyLang
