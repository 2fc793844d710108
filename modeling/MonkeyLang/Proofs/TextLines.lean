import MonkeyLang.Text.Lines

/-!
# The lines of a text

The bytes of a text are divided into lines without regard to the characters that they encode.
Nevertheless every line is a text again (`exists_lines_bytesOf`), for a byte below 128 is never a
part of a longer encoding: it is the encoding of one character (`encoding_of_low`).  So a line ends
where there is a line feed among the characters, and the carriage return that is dropped is a
character, too.

Texts that hold neither of the two characters, one a line, are the lines of what they make up
(`lines_bytesOf_unlines`).
-/

namespace MonkeyLang

/-! ### The bytes of a text -/

/-- The bytes of a text. -/
def bytesOf (text : String) : List UInt8 := text.toUTF8.data.toList

/-- Each character is encoded by itself. -/
theorem bytesOf_eq (text : String) : bytesOf text = text.toList.flatMap String.utf8EncodeChar := by
  rw [bytesOf, String.toUTF8_eq_toByteArray, ← String.utf8Encode_toList, List.utf8Encode,
    List.data_toByteArray]

theorem bytesOf_ofList (chars : List Char) :
    bytesOf (String.ofList chars) = chars.flatMap String.utf8EncodeChar := by
  rw [bytesOf_eq, String.toList_ofList]

theorem bytesOf_append (first second : String) :
    bytesOf (first ++ second) = bytesOf first ++ bytesOf second := by
  rw [bytesOf_eq, bytesOf_eq, bytesOf_eq, String.toList_append, List.flatMap_append]

theorem bytesOf_lineFeed : bytesOf "\n" = [lineFeed] := by decide +kernel

/-- A byte below 128 is all there is of the encoding of a character. -/
theorem encoding_of_low {c : Char} {byte : UInt8} (member : byte ∈ String.utf8EncodeChar c)
    (low : byte.toNat < 128) : String.utf8EncodeChar c = [byte] ∧ c.toNat = byte.toNat := by
  have value : c.toNat = c.val.toNat := rfl
  revert member
  fun_cases String.utf8EncodeChar c with
  | case1 v small =>
    intro member
    obtain rfl := List.mem_singleton.1 member
    refine ⟨rfl, ?_⟩
    rw [value, UInt8.toNat_ofNat']
    omega
  | case2 v _ _ =>
    simp only [List.mem_cons, List.not_mem_nil, or_false]
    rintro (rfl | rfl) <;> rw [UInt8.toNat_ofNat'] at low <;> omega
  | case3 v _ _ _ =>
    simp only [List.mem_cons, List.not_mem_nil, or_false]
    rintro (rfl | rfl | rfl) <;> rw [UInt8.toNat_ofNat'] at low <;> omega
  | case4 v _ _ _ =>
    simp only [List.mem_cons, List.not_mem_nil, or_false]
    rintro (rfl | rfl | rfl | rfl) <;> rw [UInt8.toNat_ofNat'] at low <;> omega

/-- A character below 128 is found among the bytes only where it stands in the text. -/
theorem mem_of_mem_bytesOf {text : String} {c : Char} (low : c.toNat < 128)
    (member : UInt8.ofNat c.toNat ∈ bytesOf text) : c ∈ text.toList := by
  rw [bytesOf_eq] at member
  obtain ⟨d, inside, encoded⟩ := List.mem_flatMap.1 member
  have byte : (UInt8.ofNat c.toNat).toNat = c.toNat := by
    rw [UInt8.toNat_ofNat']
    omega
  obtain ⟨-, same⟩ := encoding_of_low encoded (byte.symm ▸ low)
  obtain rfl : d = c := Char.toNat_inj.1 (same.trans byte)
  exact inside

/-! ### Lines -/

/-- Without the carriage return at its end a text is still a text. -/
theorem exists_dropReturn_bytesOf (text : String) :
    ∃ shorter, dropReturn (bytesOf text) = bytesOf shorter := by
  unfold dropReturn
  split
  · rename_i last
    rcases List.eq_nil_or_concat text.toList with empty | ⟨front, c, split⟩
    · rw [bytesOf_eq, empty] at last
      exact absurd last (by simp)
    · refine ⟨String.ofList front, ?_⟩
      have bytes : bytesOf text =
          front.flatMap String.utf8EncodeChar ++ String.utf8EncodeChar c := by
        rw [bytesOf_eq, split, List.concat_eq_append, List.flatMap_append, List.flatMap_singleton]
      -- the carriage return is the last character, and it is encoded by this byte alone
      have encoded : carriageReturn ∈ String.utf8EncodeChar c := by
        rw [bytes, List.getLast?_append] at last
        cases ending : (String.utf8EncodeChar c).getLast? with
        | none => exact absurd (List.getLast?_eq_none_iff.1 ending) String.utf8EncodeChar_ne_nil
        | some byte =>
          rw [ending, Option.some_or, Option.some_inj] at last
          exact last ▸ List.mem_of_getLast? ending
      rw [bytes, (encoding_of_low encoded (by decide)).1, List.dropLast_concat, bytesOf_ofList]
  · exact ⟨text, rfl⟩

/-- A text without carriage returns loses nothing at its end. -/
theorem dropReturn_bytesOf {text : String} (h : '\r' ∉ text.toList) :
    dropReturn (bytesOf text) = bytesOf text := by
  refine if_neg fun last => h ?_
  exact mem_of_mem_bytesOf (by decide) (List.mem_of_getLast? last)

theorem lineFeed_not_mem_bytesOf {text : String} (h : '\n' ∉ text.toList) :
    lineFeed ∉ bytesOf text :=
  fun member => h (mem_of_mem_bytesOf (by decide) member)

/-- Every line of a text is a text. -/
theorem exists_lines_bytesOf (text : String) :
    ∃ texts : List String, lines (bytesOf text) = texts.map bytesOf := by
  induction length : text.toList.length using Nat.strongRecOn generalizing text with
  | ind n ih =>
    by_cases ends : '\n' ∈ text.toList
    · obtain ⟨front, later, split, apart⟩ := List.eq_append_cons_of_mem ends
      have shorter : later.length < n := by
        rw [← length, split, List.length_append, List.length_cons]
        omega
      have whole : bytesOf text =
          bytesOf (String.ofList front) ++ lineFeed :: bytesOf (String.ofList later) := by
        rw [bytesOf_eq, split, List.flatMap_append, List.flatMap_cons, bytesOf_ofList,
          bytesOf_ofList]
        rfl
      obtain ⟨first, dropped⟩ := exists_dropReturn_bytesOf (String.ofList front)
      obtain ⟨others, rest⟩ := ih _ shorter (String.ofList later) (by rw [String.toList_ofList])
      refine ⟨first :: others, ?_⟩
      rw [whole, lines_append_lineFeed (lineFeed_not_mem_bytesOf (by rwa [String.toList_ofList])),
        dropped, rest, List.map_cons]
    · by_cases empty : bytesOf text = []
      · exact ⟨[], by rw [empty, lines_nil, List.map_nil]⟩
      · exact ⟨[text], lines_of_not_mem (lineFeed_not_mem_bytesOf ends) empty⟩

theorem decode?_bytesOf (text : String) : decode? (bytesOf text) = some text := decode?_toUTF8 text

/-- A line is the text that it is decoded to. -/
theorem decode?_eq_some_iff {line : List UInt8} {text : String} :
    decode? line = some text ↔ bytesOf text = line := by
  constructor
  · intro decoded
    rw [decode?, String.fromUTF8?] at decoded
    split at decoded
    · obtain rfl := Option.some.inj decoded
      show (line.toByteArray).data.toList = line
      rw [List.data_toByteArray]
    · cases decoded
  · rintro rfl
    exact decode?_bytesOf text

/-- A carriage return at the end of a line is a character of its own. -/
theorem decode?_append_return (line : List UInt8) :
    decode? (line ++ [carriageReturn]) = (decode? line).map (· ++ "\r") := by
  cases decoded : decode? line with
  | some text =>
    have bytes : bytesOf "\r" = [carriageReturn] := by decide +kernel
    rw [Option.map_some, decode?_eq_some_iff, bytesOf_append, decode?_eq_some_iff.1 decoded, bytes]
  | none =>
    rw [Option.map_none, Option.eq_none_iff_forall_ne_some]
    intro text longer
    obtain ⟨shorter, dropped⟩ := exists_dropReturn_bytesOf text
    rw [decode?_eq_some_iff.1 longer, dropReturn, if_pos List.getLast?_concat,
      List.dropLast_concat] at dropped
    rw [decode?_eq_some_iff.2 dropped.symm] at decoded
    cases decoded

/-- Some texts, one a line. -/
def unlines : List String → String
  | [] => ""
  | text :: texts => text ++ "\n" ++ unlines texts

/-- Texts without line ends of their own, one a line, are the lines of what they make up. -/
theorem lines_bytesOf_unlines {texts : List String}
    (h : ∀ text ∈ texts, '\n' ∉ text.toList ∧ '\r' ∉ text.toList) :
    lines (bytesOf (unlines texts)) = texts.map bytesOf := by
  induction texts with
  | nil =>
    show lines (bytesOf "") = []
    rw [bytesOf_eq]
    exact lines_nil
  | cons text texts ih =>
    obtain ⟨⟨noFeed, noReturn⟩, others⟩ := List.forall_mem_cons.1 h
    rw [unlines, bytesOf_append, bytesOf_append, bytesOf_lineFeed, List.append_assoc,
      List.singleton_append, lines_append_lineFeed (lineFeed_not_mem_bytesOf noFeed),
      dropReturn_bytesOf noReturn, ih others, List.map_cons]

end MonkeyLang
