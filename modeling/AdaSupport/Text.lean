import AdaSupport.Bytes

/-!
# Text operations

The string operations of a program. A text may be absent and then counts as empty; results are cut
to `maxLength` bytes, one less than a result slot holds.
-/

namespace AdaSupport

/-- A text that a program hands over, absent for a null reference. -/
abbrev Text := Option Bytes

namespace Text

/-- The most bytes that an operation returns. -/
def maxLength : Nat := 1023

/-- The bytes of a text, none when it is absent. -/
def bytes (t : Text) : Bytes := t.getD []

@[simp] theorem bytes_some (bs : Bytes) : bytes (some bs) = bs := rfl

/-- The number of bytes, at most the largest integer. -/
def length (t : Text) : Int32 := Int32.ofInt (min (t.bytes.length : Int) 2147483647)

/-- At most `length` bytes from position `start` on; empty when either is negative or `start` is
past the end. -/
def substring (t : Text) (start length : Int32) : Bytes :=
  if start < 0 ∨ length < 0 then []
  else (t.bytes.drop start.toInt.toNat).take (min length.toInt.toNat maxLength)

/-- The two texts one after the other. -/
def concat (s t : Text) : Bytes := (s.bytes ++ t.bytes).take maxLength

/-- The text in capitals. -/
def toUpper (t : Text) : Bytes := (t.bytes.take maxLength).map Bytes.toUpper

/-- The text in small letters. -/
def toLower (t : Text) : Bytes := (t.bytes.take maxLength).map Bytes.toLower

theorem length_concat_le (s t : Text) : (s.concat t).length ≤ maxLength := by
  simp only [concat, List.length_take]; omega

theorem length_substring_le (t : Text) (i n : Int32) : (t.substring i n).length ≤ maxLength := by
  unfold substring
  split
  · simp
  · simp only [List.length_take]; omega

theorem length_toUpper_le (t : Text) : t.toUpper.length ≤ maxLength := by
  simp only [toUpper, List.length_map, List.length_take]; omega

theorem length_toLower_le (t : Text) : t.toLower.length ≤ maxLength := by
  simp only [toLower, List.length_map, List.length_take]; omega

end Text

end AdaSupport
