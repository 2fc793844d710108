import MonkeyLang.Console.Session

/-!
# Sessions in two parts

A session carries nothing over from one line to the next.  So if its input is cut behind a line
feed, it does what a session on the first part does up to its last prompt, and then what a session
on the second part does (`Console.session_append`).  Only a line that is not text makes a
difference, since it ends the session.

Three things are put together: the lines of an input that is cut behind a line feed are the lines of
its parts (`lines_append`), the script of a session goes round by round (`Session.script_append`),
and what an output without a limit gets does not depend on what it has got before
(`Console.run_behind`).
-/

namespace MonkeyLang

/-! ### Lines -/

/-- The input is empty or ends with a line feed. -/
def WholeLines (input : List UInt8) : Prop := input = [] ∨ input.getLast? = some lineFeed

/-- Behind a line feed new lines begin. -/
theorem lines_append {first : List UInt8} (whole : WholeLines first) (second : List UInt8) :
    lines (first ++ second) = lines first ++ lines second := by
  induction length : first.length using Nat.strongRecOn generalizing first with
  | ind n ih =>
    rcases whole with rfl | ends
    · rw [lines_nil, List.nil_append, List.nil_append]
    obtain ⟨line, later, rfl, apart⟩ :=
      List.eq_append_cons_of_mem (List.mem_of_getLast? ends)
    have shorter : later.length < n := by
      rw [List.length_append, List.length_cons] at length
      omega
    have whole : WholeLines later := by
      by_cases empty : later = []
      · exact .inl empty
      · rw [List.getLast?_append, List.getLast?_cons_of_ne_nil empty] at ends
        cases last : later.getLast? with
        | none => exact absurd (List.getLast?_eq_none_iff.1 last) empty
        | some byte =>
          rw [last, Option.some_or] at ends
          exact .inr (last.trans ends)
    rw [List.append_assoc, List.cons_append, lines_append_lineFeed apart,
      lines_append_lineFeed apart, ih _ shorter whole rfl, List.cons_append]

/-! ### Scripts -/

/-- The action does not end the program. -/
def Action.Proceeds : Action → Prop
  | .stop _ => False
  | _ => True

namespace Session

variable (config : Config)

theorem proceeds_complaint (color : Bool) (messages : List String) :
    ∀ action ∈ complaint color messages, action.Proceeds := by
  simp [complaint, Action.Proceeds]

/-- To answer a line does not end the session. -/
theorem proceeds_answer (line : String) : ∀ action ∈ answer config line, action.Proceeds := by
  unfold answer
  split
  · simp
  · refine List.forall_mem_cons.2 ⟨trivial, ?_⟩
    unfold evaluate
    split
    · simp [Action.Proceeds]
    · refine List.forall_mem_append.2 ⟨by simp [Action.Proceeds], ?_⟩
      split
      · simp [Action.Proceeds]
      · exact proceeds_complaint _ _

/-- The prompt for a line and the answer to it, if it is text. -/
def round (line : List UInt8) : List Action :=
  ask config ++ (decode? line).elim [] (answer config)

theorem proceeds_round (line : List UInt8) : ∀ action ∈ round config line, action.Proceeds := by
  refine List.forall_mem_append.2 ⟨by simp [ask, Action.Proceeds], ?_⟩
  cases decode? line with
  | none => simp
  | some text => exact proceeds_answer config text

/-- After rounds over some lines the session goes on as if it had just begun. -/
theorem script_append {first : List (List UInt8)} (texts : ∀ line ∈ first, decode? line ≠ none)
    (second : List (List UInt8)) :
    script config (first ++ second) = first.flatMap (round config) ++ script config second := by
  induction first with
  | nil => rfl
  | cons line first ih =>
    obtain ⟨here, texts⟩ := List.forall_mem_cons.1 texts
    obtain ⟨text, decoded⟩ := Option.ne_none_iff_exists'.1 here
    simp only [List.cons_append, script_cons_of_text decoded, ih texts, List.flatMap_cons, round,
      decoded, Option.elim_some, List.append_assoc]

/-- At a line that is not text the session ends, whatever follows. -/
theorem script_append_of_notText {first : List (List UInt8)}
    (broken : ∃ line ∈ first, decode? line = none) :
    ∃ before : List Action, (∀ action ∈ before, action.Proceeds) ∧
      ∀ second, script config (first ++ second) = before ++ [.stop .notText] := by
  induction first with
  | nil => simp at broken
  | cons line first ih =>
    have asks : ∀ action ∈ ask config, action.Proceeds := by simp [ask, Action.Proceeds]
    cases decoded : decode? line with
    | none => exact ⟨ask config, asks, fun second => script_cons_of_notText decoded _⟩
    | some text =>
      have later : ∃ line ∈ first, decode? line = none := by
        obtain ⟨other, member, notText⟩ := broken
        rcases List.mem_cons.1 member with rfl | member
        · rw [decoded] at notText
          exact absurd notText (Option.some_ne_none text)
        · exact ⟨other, member, notText⟩
      obtain ⟨before, proceeds, whole⟩ := ih later
      refine ⟨ask config ++ (answer config text ++ before), ?_, fun second => ?_⟩
      · exact List.forall_mem_append.2
          ⟨asks, List.forall_mem_append.2 ⟨proceeds_answer config text, proceeds⟩⟩
      · rw [List.cons_append, script_cons_of_text decoded, List.append_assoc, List.append_assoc,
          ← whole second]

end Session

/-! ### Outputs without a limit -/

namespace Console

/-- The output has no limit, and nothing has failed. -/
structure Open (console : Console) : Prop where
  capacity : console.capacity = none
  failure : console.failure = none

/-- What the second console has got, behind what the first one has got. -/
def behind (first second : Console) : Console where
  capacity := second.capacity
  bytes := first.bytes ++ second.bytes
  flushes := first.flushes ++ second.flushes.map (first.bytes.size + ·)
  log := first.log ++ second.log
  failure := second.failure

variable {first second console : Console}

/-- Behind an open console, one that has got nothing adds nothing. -/
theorem behind_fresh (h : first.Open) : first.behind {} = first := by
  obtain ⟨capacity, bytes, flushes, log, failure⟩ := first
  obtain ⟨rfl, rfl⟩ : capacity = none ∧ failure = none := ⟨h.capacity, h.failure⟩
  simp [behind]

theorem perform_capacity (console : Console) (action : Action) :
    (console.perform action).capacity = console.capacity := by
  unfold perform
  split
  · rfl
  · cases action with
    | write text =>
      dsimp only [write]
      split
      · rfl
      · split <;> rfl
    | flush => rfl
    | log record => rfl
    | stop failure => rfl

/-- Where nothing has failed, every action is performed. -/
theorem perform_of_sound (h : console.failure = none) (action : Action) :
    console.perform action =
      match action with
      | .write text => console.write text
      | .flush => { console with flushes := console.flushes.push console.bytes.size }
      | .log record => { console with log := console.log.push record }
      | .stop failure => { console with failure := some failure } := by
  unfold perform
  rw [h]
  rfl

/-- What an action does does not depend on what the output has got before. -/
theorem perform_behind (first : Console) (unlimited : second.capacity = none) (action : Action) :
    (first.behind second).perform action = first.behind (second.perform action) := by
  cases failed : second.failure with
  | some failure =>
    have stopped : second.failure.isSome := by rw [failed, Option.isSome_some]
    have stopped' : (first.behind second).failure.isSome := stopped
    rw [perform_of_failed stopped, perform_of_failed stopped']
  | none =>
    have failed' : (first.behind second).failure = none := failed
    rw [perform_of_sound failed, perform_of_sound failed']
    cases action with
    | write text =>
      simp [write, unlimited, behind, ByteArray.append_assoc]
    | flush => simp [behind]
    | log record => simp [behind]
    | stop failure => rfl

/-- What a script does does not depend on what the output has got before. -/
theorem run_behind (first : Console) (unlimited : second.capacity = none) (script : List Action) :
    (first.behind second).run script = first.behind (second.run script) := by
  induction script generalizing second with
  | nil => rfl
  | cons action script ih =>
    rw [run_cons, run_cons, perform_behind first unlimited,
      ih ((second.perform_capacity action).trans unlimited)]

/-- A script that does not end the program leaves an open console open. -/
theorem Open.run (h : console.Open) {script : List Action}
    (proceeds : ∀ action ∈ script, action.Proceeds) : (console.run script).Open := by
  induction script generalizing console with
  | nil => exact h
  | cons action script ih =>
    obtain ⟨here, proceeds⟩ := List.forall_mem_cons.1 proceeds
    have unlimited := (console.perform_capacity action).trans h.capacity
    refine ih ⟨unlimited, ?_⟩ proceeds
    rw [perform_of_sound h.failure]
    cases action with
    | write text => simp [write, h.capacity, h.failure]
    | flush => exact h.failure
    | log record => exact h.failure
    | stop failure => exact here.elim

/-! ### Whole sessions -/

/-- What is done behind an open console is what is done on a fresh one. -/
theorem Open.run_eq (h : console.Open) (script : List Action) :
    console.run script = console.behind (({} : Console).run script) := by
  rw [← run_behind console rfl, behind_fresh h]

section
variable (config : Session.Config) {first : List (List UInt8)}

/-- What is done on lines of text leaves an open console, and the session on later lines adds to it
what it does by itself. -/
theorem run_script_append (texts : ∀ line ∈ first, decode? line ≠ none) :
    ∃ done : Console, done.Open ∧ ∀ later,
      ({} : Console).run (Session.script config (first ++ later)) =
        done.behind (({} : Console).run (Session.script config later)) := by
  have proceeds : ∀ action ∈ first.flatMap (Session.round config), action.Proceeds := by
    intro action member
    obtain ⟨line, -, member⟩ := List.mem_flatMap.1 member
    exact Session.proceeds_round config line action member
  have opened : (({} : Console).run (first.flatMap (Session.round config))).Open :=
    Open.run ⟨rfl, rfl⟩ proceeds
  refine ⟨_, opened, fun later => ?_⟩
  rw [Session.script_append config texts, run_append, opened.run_eq]

/-- A line that is not text stops an open console, whatever follows. -/
theorem run_script_of_notText (broken : ∃ line ∈ first, decode? line = none) :
    ∃ done : Console, done.Open ∧ ∀ later,
      ({} : Console).run (Session.script config (first ++ later)) =
        done.perform (.stop .notText) := by
  obtain ⟨before, proceeds, script⟩ := Session.script_append_of_notText config broken
  have opened : (({} : Console).run before).Open := Open.run ⟨rfl, rfl⟩ proceeds
  refine ⟨_, opened, fun later => ?_⟩
  rw [script, run_append, run_cons, run_nil]

/-- Without any line there is one prompt and the farewell. -/
theorem run_script_nil :
    ({} : Console).run (Session.script config []) =
      let prompt := (Color.prompt.paint config.color config.prompt).toUTF8
      ⟨none, prompt, #[prompt.size], #[Session.farewell], none⟩ := by
  simp [Session.script, Session.ask, Session.reply, perform, write]

end

/-- **A session carries nothing over from one line to the next.**  Let an input be empty or end with
a line feed.  If all its lines are text, then a session on it with more input behind it is the
session on it without its last prompt and without its farewell, and then the session on what comes
behind.  Otherwise the session ends at the first line that is not text, whatever comes behind. -/
theorem session_append (config : Session.Config) {x : List UInt8} (whole : WholeLines x)
    (y : List UInt8) :
    let run (input : List UInt8) : Console := ({} : Console).session config input
    let prompt := (Color.prompt.paint config.color config.prompt).toUTF8
    ((∀ line ∈ lines x, decode? line ≠ none) →
      ∃ bytes flushes log,
        (run x).bytes = bytes ++ prompt ∧ (run (x ++ y)).bytes = bytes ++ (run y).bytes ∧
        (run x).flushes = flushes.push (run x).bytes.size ∧
        (run (x ++ y)).flushes = flushes ++ (run y).flushes.map (bytes.size + ·) ∧
        (run x).log = log.push Session.farewell ∧ (run (x ++ y)).log = log ++ (run y).log ∧
        (run x).failure = none ∧ (run (x ++ y)).failure = (run y).failure) ∧
    ((∃ line ∈ lines x, decode? line = none) →
      run (x ++ y) = run x ∧ (run x).failure = some .notText) := by
  intro run prompt
  have run_lines (first second : List (List UInt8)) (input : List UInt8)
      (same : lines input = first ++ second) :
      run input = ({} : Console).run (Session.script config (first ++ second)) := by
    rw [← same]
    rfl
  have run_x := run_lines (lines x) [] x (List.append_nil _).symm
  have run_both := run_lines (lines x) (lines y) (x ++ y) (lines_append whole y)
  constructor
  · intro texts
    obtain ⟨done, -, adds⟩ := run_script_append config texts
    rw [adds, run_script_nil] at run_x
    have run_both : run (x ++ y) = done.behind (run y) := run_both.trans (adds _)
    refine ⟨done.bytes, done.flushes, done.log, ?_⟩
    rw [run_x, run_both]
    refine ⟨rfl, rfl, ?_, rfl, ?_, rfl, rfl, rfl⟩
    · simp [behind, ByteArray.size_append]
    · simp [behind]
  · intro broken
    obtain ⟨done, opened, stopped⟩ := run_script_of_notText config broken
    rw [run_x, run_both, stopped, stopped]
    refine ⟨rfl, ?_⟩
    rw [perform_of_sound opened.failure]

/-- The input `x` is a blank line and a broken one, and `z` a line of text and one that is none. -/
theorem session_append_letter :
    let run (input : List UInt8) : Console := ({} : Console).session {} input
    let x : List UInt8 := [lineFeed, 0x29, carriageReturn, lineFeed]
    let y : List UInt8 := [0x61]
    let z : List UInt8 := [0x61, lineFeed, 0xFF, lineFeed]
    WholeLines x ∧ (∀ line ∈ lines x, decode? line ≠ none) ∧
      WholeLines z ∧ (∃ line ∈ lines z, decode? line = none) ∧
      (∃ bytes, (run x).bytes = bytes ++ ">> ".toUTF8 ∧
        (run (x ++ y)).bytes = bytes ++ (run y).bytes) ∧
      run (z ++ y) = run z ∧ (run z).failure = some .notText := by
  intro run x y z
  have texts : ∀ line ∈ lines x, decode? line ≠ none := by decide +kernel
  have broken : ∃ line ∈ lines z, decode? line = none := by decide +kernel
  obtain ⟨bytes, -, -, alone, both, -⟩ := (session_append {} (x := x) (.inr rfl) y).1 texts
  exact ⟨.inr rfl, texts, .inr rfl, broken, ⟨bytes, alone, both⟩,
    (session_append {} (x := z) (.inr rfl) y).2 broken⟩

end Console

end MonkeyLang
