import MonkeyLang.Proofs.Sessions

/-!
# Outputs that accept a limited number of bytes

An output that accepts no more than `n` bytes gets the first `n` bytes of what an output without a
limit gets, and nothing else is different (`Console.session_truncated`).  If everything fits, then
the limit plays no part.  Otherwise the program stops at the first byte that does not fit: up to
there it has passed on what it has written where it would have done so anyway, it has told a
beginning of what it would have told, and it ends with the failure of the output, to whatever end it
would have come.

This does not depend on what the program does.  The two outputs are compared action by action
(`Cut.perform`).  As long as there is room they agree; once there is none the limited output stays
as it is, and all that the other one gets is behind the cut.  A text may be cut anywhere, and it
makes no difference in how many pieces it is written (`Console.perform_write_append`).
-/

namespace MonkeyLang

namespace Console

variable {n : Nat} {whole limited console : Console}

/-! ### Where there is room and where there is none -/

/-- The console with an output that accepts `n` bytes. -/
def limitTo (n : Nat) (console : Console) : Console := { console with capacity := some n }

theorem write_of_room {text : String}
    (room : ∀ capacity, console.capacity = some capacity →
      (console.bytes ++ text.toUTF8).size ≤ capacity) :
    console.write text = { console with bytes := console.bytes ++ text.toUTF8 } := by
  unfold write
  split
  · rfl
  · rename_i capacity limited
    exact if_pos (room capacity limited)

theorem write_of_full {text : String} {capacity : Nat} (limited : console.capacity = some capacity)
    (full : capacity < (console.bytes ++ text.toUTF8).size) :
    console.write text =
      { console with
        bytes := (console.bytes ++ text.toUTF8).extract 0 capacity
        failure := some .outputFull } := by
  simp only [write, limited]
  exact if_neg (Nat.not_le.2 full)

/-- What is behind a cut plays no part. -/
theorem extract_append_of_lt {bytes : ByteArray} (h : n < bytes.size) (more : ByteArray) :
    (bytes ++ more).extract 0 n = bytes.extract 0 n := by
  rw [ByteArray.extract_append, Nat.zero_sub, Nat.sub_eq_zero_of_le (Nat.le_of_lt h),
    ByteArray.extract_same, ByteArray.append_empty]

/-- A text may as well be written in two pieces, wherever it is divided. -/
theorem perform_write_append (console : Console) (first second : String) :
    console.perform (.write (first ++ second)) =
      (console.perform (.write first)).perform (.write second) := by
  by_cases stopped : console.failure.isSome
  · rw [perform_of_failed stopped, perform_of_failed stopped, perform_of_failed stopped]
  have sound : console.failure = none := by simpa using stopped
  have whole : console.bytes ++ (first ++ second).toUTF8 =
      console.bytes ++ first.toUTF8 ++ second.toUTF8 := by
    simp [ByteArray.append_assoc]
  rw [perform_of_sound sound, perform_of_sound sound]
  dsimp only
  by_cases full : ∃ capacity, console.capacity = some capacity ∧
      capacity < (console.bytes ++ first.toUTF8).size
  · -- the first piece fills the output, and the second one is not begun
    obtain ⟨capacity, limited, full⟩ := full
    have full' : capacity < (console.bytes ++ (first ++ second).toUTF8).size := by
      rw [whole, ByteArray.size_append]
      omega
    rw [write_of_full limited full, write_of_full limited full', whole,
      extract_append_of_lt full, perform_of_failed rfl]
  · have room : ∀ capacity, console.capacity = some capacity →
        (console.bytes ++ first.toUTF8).size ≤ capacity :=
      fun capacity limited => Nat.not_lt.1 fun lt => full ⟨capacity, limited, lt⟩
    have between : ({ console with bytes := console.bytes ++ first.toUTF8 } : Console).failure =
        none := sound
    rw [write_of_room room, perform_of_sound between]
    simp only [write, whole]

/-! ### The cut -/

/-- What an output that accepts `n` bytes has got when an output without a limit has got the whole:
all of it, or what is before the cut. -/
inductive Cut (n : Nat) : Console → Console → Prop
  | fits {whole : Console} (unlimited : whole.capacity = none) (room : whole.bytes.size ≤ n)
      (flushes : ∀ place ∈ whole.flushes, place ≤ n) :
      Cut n whole (whole.limitTo n)
  | full {whole limited : Console} (unlimited : whole.capacity = none)
      (past : n < whole.bytes.size) (bytes : limited.bytes = whole.bytes.extract 0 n)
      (failure : limited.failure = some .outputFull)
      (flushes : limited.flushes = whole.flushes.filter (· ≤ n))
      (log : limited.log.toList <+: whole.log.toList) :
      Cut n whole limited

/-- Whatever is done, the outputs differ by the cut only. -/
theorem Cut.perform (h : Cut n whole limited) (action : Action) :
    Cut n (whole.perform action) (limited.perform action) := by
  cases h with
  | fits unlimited room flushes =>
    by_cases stopped : whole.failure.isSome
    · have stopped' : (whole.limitTo n).failure.isSome := stopped
      rw [perform_of_failed stopped, perform_of_failed stopped']
      exact .fits unlimited room flushes
    have sound : whole.failure = none := by simpa using stopped
    have sound' : (whole.limitTo n).failure = none := sound
    rw [perform_of_sound sound, perform_of_sound sound']
    cases action with
    | write text =>
      have written : whole.write text = { whole with bytes := whole.bytes ++ text.toUTF8 } :=
        write_of_room (by simp [unlimited])
      dsimp only
      rw [written]
      by_cases past : n < (whole.bytes ++ text.toUTF8).size
      · have cut : (whole.limitTo n).write text = _ := write_of_full rfl past
        rw [cut]
        refine .full unlimited past rfl rfl ?_ List.prefix_rfl
        show whole.flushes = whole.flushes.filter (· ≤ n)
        exact (Array.filter_eq_self.2 fun place member => by simpa using flushes place member).symm
      · have fits : (whole.bytes ++ text.toUTF8).size ≤ n := Nat.not_lt.1 past
        have written' : (whole.limitTo n).write text = _ :=
          write_of_room (by rintro _ ⟨⟩; exact fits)
        rw [written']
        exact .fits unlimited fits flushes
    | flush =>
      refine .fits unlimited room ?_
      intro place member
      rcases Array.mem_push.1 member with member | rfl
      · exact flushes place member
      · exact room
    | log record => exact .fits unlimited room flushes
    | stop failure => exact .fits unlimited room flushes
  | full unlimited past bytes failure flushes log =>
    have stopped' : limited.failure.isSome := by rw [failure, Option.isSome_some]
    rw [perform_of_failed stopped']
    by_cases stopped : whole.failure.isSome
    · rw [perform_of_failed stopped]
      exact .full unlimited past bytes failure flushes log
    rw [perform_of_sound (by simpa using stopped)]
    cases action with
    | write text =>
      dsimp only
      rw [write_of_room (by simp [unlimited])]
      refine .full unlimited ?_ ?_ failure flushes log
      · rw [ByteArray.size_append]
        omega
      · rw [bytes, extract_append_of_lt past]
    | flush =>
      -- the bytes are passed on behind the cut
      refine .full unlimited past bytes failure ?_ log
      show limited.flushes = (whole.flushes.push whole.bytes.size).filter (· ≤ n)
      rw [Array.filter_push_of_neg (by simpa using past) (by simp), flushes]
    | log record =>
      refine .full unlimited past bytes failure flushes (log.trans ?_)
      simp
    | stop => exact .full unlimited past bytes failure flushes log

/-- A whole script leaves outputs that differ by the cut only. -/
theorem Cut.run (h : Cut n whole limited) (script : List Action) :
    Cut n (whole.run script) (limited.run script) := by
  induction script generalizing whole limited with
  | nil => exact h
  | cons action script ih => exact ih (h.perform action)

/-! ### Whole sessions -/

/-- What a program does on an output that accepts `n` bytes is what it does on one without a limit,
cut off behind `n` bytes. -/
def Truncates (n : Nat) (program : Console → Console) : Prop :=
  let whole := program {}
  let limited := program { capacity := some n }
  (whole.bytes.size ≤ n →
    limited.bytes = whole.bytes ∧ limited.flushes = whole.flushes ∧
      limited.failure = whole.failure ∧ limited.log = whole.log) ∧
  (n < whole.bytes.size →
    limited.bytes = whole.bytes.extract 0 n ∧ limited.failure = some .outputFull ∧
      limited.flushes = whole.flushes.filter (· ≤ n) ∧
      limited.log.toList <+: whole.log.toList)

theorem truncates_run (n : Nat) (script : List Action) : Truncates n (·.run script) := by
  have start : Cut n {} { capacity := some n } := .fits rfl (Nat.zero_le n) (by simp)
  unfold Truncates
  dsimp only
  have cut := start.run script
  generalize ({} : Console).run script = whole at cut ⊢
  generalize ({ capacity := some n } : Console).run script = limited at cut ⊢
  cases cut with
  | fits _ room _ => exact ⟨fun _ => ⟨rfl, rfl, rfl, rfl⟩, fun past => absurd room (by omega)⟩
  | full _ past bytes failure flushes log =>
    exact ⟨fun room => absurd room (by omega), fun _ => ⟨bytes, failure, flushes, log⟩⟩

/-- **A failing output cuts a session off and changes nothing else.**  This holds for a session with
any settings on any input, and for any list of messages under the banner. -/
theorem session_truncated (n : Nat) :
    (∀ config input, Truncates n (·.session config input)) ∧
      ∀ color messages, Truncates n (·.run (Session.complaint color messages)) :=
  ⟨fun config input => truncates_run n (Session.script config (lines input)),
    fun color messages => truncates_run n (Session.complaint color messages)⟩

/-- With room for four bytes the prompt is passed on, and the answer is cut off. -/
example :
    let console := ({ capacity := some 4 } : Console).session {} [0x61, 0x62, lineFeed]
    console.bytes = ">> a".toUTF8 ∧ console.flushes = #[3] ∧
      console.failure = some .outputFull := by
  decide +kernel

end Console

end MonkeyLang
