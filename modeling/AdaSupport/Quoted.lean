import AdaSupport.Bytes.Utf8
import AdaSupport.Character.Mark
import AdaSupport.Character.Unprintable

/-!
# Quoted text

A text in quotes shows every character it holds. A character that would not be seen on its own is
written by its number, a byte that belongs to no character by its value.

* `Quoted.isHidden`: the characters written by their number.
* `Quoted.text`, `Quoted.path`: a text and a path in quotes.
-/

namespace AdaSupport.Quoted

/-- Letters that fill a place of a syllable and are drawn as nothing. -/
def fillers : Character.Ranges := [(0x115F, 0x1160), (0x3164, 0x3164), (0xFFA0, 0xFFA0)]

/-- Whether a character is written by its number: it attaches to the one before it, has no printed
form, or is a filler. -/
def isHidden (c : Char) : Bool :=
  Character.attachingMarks.contains c || Character.unprintable.contains c || fillers.contains c

/-- A character inside quotes. -/
def char (c : Char) : List Char :=
  if c = '"' then ['\\', '"']
  else if c = '\\' then ['\\', '\\']
  else if c = '\n' then ['\\', 'n']
  else if c = '\t' then ['\\', 't']
  else if c = '\r' then ['\\', 'r']
  else if c = Char.ofNat 0 then ['\\', '0']
  else if isHidden c then '\\' :: 'u' :: '\x7b' :: (Nat.toDigits 16 c.toNat ++ ['\x7d'])
  else [c]

/-- An ill-formed byte inside quotes, in two capital hexadecimal digits. -/
def byte (b : UInt8) : List Char :=
  '\\' :: 'x' :: [Nat.digitChar (b.toNat / 16), Nat.digitChar (b.toNat % 16)].map Char.toUpper

/-- A piece of text inside quotes. -/
def piece : Utf8.Piece → List Char
  | .char c => char c
  | .broken bs => bs.flatMap byte

/-- A text in quotes. -/
def text (s : String) : String := String.ofList ('"' :: (s.toList.flatMap char ++ ['"']))

/-- A path in quotes. -/
def path (p : Bytes) : String := String.ofList ('"' :: ((Utf8.pieces p).flatMap piece ++ ['"']))

end AdaSupport.Quoted
