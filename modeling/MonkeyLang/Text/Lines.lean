/-!
# Lines of a byte stream

A line ends at a line feed, and one carriage return directly before the line feed belongs to the
line end.  What stands behind the last line feed is a line as well, unless it is empty; it has no
line end, so a carriage return there is kept.  `decode?` is the text of a line, if its bytes are
UTF-8.
-/

namespace MonkeyLang

/-- The byte that ends a line. -/
def lineFeed : UInt8 := 10

/-- The byte that may stand before it. -/
def carriageReturn : UInt8 := 13

/-- A line without the carriage return at its end. -/
def dropReturn (line : List UInt8) : List UInt8 :=
  if line.getLast? = some carriageReturn then line.dropLast else line

/-- The lines of a stream of bytes, without their line ends. -/
def lines (bytes : List UInt8) : List (List UInt8) :=
  let ahead := bytes.dropWhile (· ≠ lineFeed)
  if _ : ahead = [] then if bytes = [] then [] else [bytes]
  else dropReturn (bytes.takeWhile (· ≠ lineFeed)) :: lines ahead.tail
termination_by bytes.length
decreasing_by
  have shorter : ahead.length ≤ bytes.length := (List.dropWhile_sublist _).length_le
  have positive := List.length_pos_iff.2 (by assumption : ahead ≠ [])
  have behind : ahead.tail.length = ahead.length - 1 := List.length_tail
  show ahead.tail.length < bytes.length
  omega

/-- Nothing has no lines. -/
@[simp] theorem lines_nil : lines [] = [] := by
  rw [lines]
  rfl

/-- A last line without a line feed is kept as it is. -/
theorem lines_of_not_mem {bytes : List UInt8} (h : lineFeed ∉ bytes) (nonempty : bytes ≠ []) :
    lines bytes = [bytes] := by
  have all : ∀ byte ∈ bytes, decide (byte ≠ lineFeed) = true := fun byte member => by
    have differs : byte ≠ lineFeed := fun same => h (same ▸ member)
    simpa using differs
  have behind : (bytes ++ []).dropWhile (· ≠ lineFeed) = [] := by
    rw [List.dropWhile_append_of_pos all]
    rfl
  rw [List.append_nil] at behind
  rw [lines]
  exact (dif_pos behind).trans (if_neg nonempty)

/-- The first line ends at the first line feed. -/
theorem lines_append_lineFeed {line : List UInt8} (h : lineFeed ∉ line) (later : List UInt8) :
    lines (line ++ lineFeed :: later) = dropReturn line :: lines later := by
  have all : ∀ byte ∈ line, decide (byte ≠ lineFeed) = true := fun byte member => by
    have differs : byte ≠ lineFeed := fun same => h (same ▸ member)
    simpa using differs
  have behind : (line ++ lineFeed :: later).dropWhile (· ≠ lineFeed) = lineFeed :: later := by
    rw [List.dropWhile_append_of_pos all]
    simp
  have before : (line ++ lineFeed :: later).takeWhile (· ≠ lineFeed) = line := by
    rw [List.takeWhile_append_of_pos all]
    simp
  rw [lines]
  simp only [behind, before]
  rfl

/-- The text of a line, if its bytes are UTF-8. -/
def decode? (line : List UInt8) : Option String := String.fromUTF8? line.toByteArray

/-- The bytes of a text are decoded to that text. -/
theorem decode?_toUTF8 (text : String) : decode? text.toUTF8.data.toList = some text := by
  have bytes : text.toUTF8.data.toList.toByteArray = text.toUTF8 := by
    apply ByteArray.ext
    rw [List.data_toByteArray, Array.toArray_toList]
  rw [decode?, bytes, String.fromUTF8?, String.toUTF8_eq_toByteArray, dif_pos text.isValidUTF8]
  rfl

end MonkeyLang
