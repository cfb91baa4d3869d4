/-!
# Byte strings

Program text is a string of bytes; no encoding is assumed of it. Classes and case mapping know
ASCII only.

* `isBlank`: the six blank bytes of the C locale, tab to carriage return and the space.
* `cString`: what a reader of terminated text sees, the bytes before the first zero.
* `splitSign`: one optional sign in front of a number.
* `lines`, `lastLine`: a string cut after its last newline.
-/

namespace AdaSupport

/-- A string of bytes. -/
abbrev Bytes := List UInt8

namespace Bytes

/-- The bytes of ASCII characters. -/
def ofAscii (cs : List Char) : Bytes := cs.map fun c => c.toNat.toUInt8

/-- The newline byte. -/
def newline : UInt8 := 10

/-! ## Classes of bytes -/

/-- Tab, newline, vertical tab, form feed, carriage return or space. -/
def isBlank (b : UInt8) : Bool := b == 32 || (9 ≤ b && b ≤ 13)

/-- A decimal digit. -/
def isDigit (b : UInt8) : Bool := 48 ≤ b && b ≤ 57

/-- The value of a decimal digit. -/
def digitValue (b : UInt8) : Nat := b.toNat - 48

/-- The value of a hexadecimal digit in either case. -/
def hexValue? (b : UInt8) : Option Nat :=
  if 48 ≤ b ∧ b ≤ 57 then some (b.toNat - 48)
  else if 97 ≤ b ∧ b ≤ 102 then some (b.toNat - 87)
  else if 65 ≤ b ∧ b ≤ 70 then some (b.toNat - 55)
  else none

/-- The capital of a small letter; every other byte is kept. -/
def toUpper (b : UInt8) : UInt8 := if 97 ≤ b ∧ b ≤ 122 then b - 32 else b

/-- The small letter of a capital; every other byte is kept. -/
def toLower (b : UInt8) : UInt8 := if 65 ≤ b ∧ b ≤ 90 then b + 32 else b

/-! ## Parts of a string -/

/-- The bytes before the first zero. -/
def cString (bs : Bytes) : Bytes := bs.takeWhile (· != 0)

/-- The string without its leading blanks. -/
def skipBlanks (bs : Bytes) : Bytes := bs.dropWhile isBlank

/-- Whether a minus sign stands in front, and what follows an optional sign. -/
def splitSign : Bytes → Bool × Bytes
  | [] => (false, [])
  | b :: rest =>
    if b = 45 then (true, rest) else if b = 43 then (false, rest) else (false, b :: rest)

/-- The leading digits and what follows them. -/
def splitDigits (bs : Bytes) : Bytes × Bytes := bs.span isDigit

/-- What follows `word` when the string starts with it, letters compared without case. -/
def afterWord? (bs word : Bytes) : Option Bytes :=
  if (bs.take word.length).map toLower = word then some (bs.drop word.length) else none

/-- Whether the last byte is a newline. -/
def endsLine (bs : Bytes) : Bool := bs.getLast? == some newline

/-- The string through its last newline; empty when there is none. -/
def lines (bs : Bytes) : Bytes := (bs.reverse.dropWhile (· != newline)).reverse

/-- What follows the last newline. -/
def lastLine (bs : Bytes) : Bytes := (bs.reverse.takeWhile (· != newline)).reverse

theorem lines_append_lastLine (bs : Bytes) : bs.lines ++ bs.lastLine = bs := by
  unfold lines lastLine
  rw [← List.reverse_append, List.takeWhile_append_dropWhile, List.reverse_reverse]

end Bytes

end AdaSupport
