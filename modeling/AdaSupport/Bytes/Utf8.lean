import AdaSupport.Bytes

/-!
# UTF-8

A byte string is read as a list of **pieces**: well-formed characters, and ill-formed runs that are
as long as the start of a well-formed character could be. Everything else follows from the pieces.

* `encode`: the bytes of a text.
* `pieces`: the characters and ill-formed runs of a byte string.
* `decode?`: the text, if nothing is ill-formed.
* `repaired`: the text with U+FFFD in place of every ill-formed run.
-/

namespace AdaSupport.Utf8

/-- The bytes of one character. -/
def encodeChar (c : Char) : Bytes :=
  let n := c.toNat
  if n < 0x80 then [n.toUInt8]
  else if n < 0x800 then [(0xC0 + n / 64).toUInt8, (0x80 + n % 64).toUInt8]
  else if n < 0x10000 then
    [(0xE0 + n / 4096).toUInt8, (0x80 + n / 64 % 64).toUInt8, (0x80 + n % 64).toUInt8]
  else
    [(0xF0 + n / 262144).toUInt8, (0x80 + n / 4096 % 64).toUInt8, (0x80 + n / 64 % 64).toUInt8,
      (0x80 + n % 64).toUInt8]

/-- The bytes of a text. -/
def encode (cs : List Char) : Bytes := cs.flatMap encodeChar

/-- The bytes of a string. -/
def bytes (s : String) : Bytes := encode s.toList

/-- What a first byte promises: how many bytes follow it, the range of the next one, and its own
share of the code point. -/
structure Lead where
  follow : Nat
  low : UInt8
  high : UInt8
  share : Nat

/-- The promise of a byte that can start a character. -/
def lead? (b : UInt8) : Option Lead :=
  if b < 0x80 then some ⟨0, 0x80, 0xBF, b.toNat⟩
  else if b < 0xC2 then none
  else if b < 0xE0 then some ⟨1, 0x80, 0xBF, b.toNat - 0xC0⟩
  else if b = 0xE0 then some ⟨2, 0xA0, 0xBF, 0⟩
  else if b = 0xED then some ⟨2, 0x80, 0x9F, 13⟩
  else if b < 0xF0 then some ⟨2, 0x80, 0xBF, b.toNat - 0xE0⟩
  else if b = 0xF0 then some ⟨3, 0x90, 0xBF, 0⟩
  else if b < 0xF4 then some ⟨3, 0x80, 0xBF, b.toNat - 0xF0⟩
  else if b = 0xF4 then some ⟨3, 0x80, 0x8F, 4⟩
  else none

/-- The bytes in front that continue a character still owed `n` of them, the next one in the given
range. -/
def continuation : Nat → UInt8 → UInt8 → Bytes → Bytes
  | 0, _, _, _ => []
  | _ + 1, _, _, [] => []
  | n + 1, low, high, b :: rest =>
    if low ≤ b ∧ b ≤ high then b :: continuation n 0x80 0xBF rest else []

/-- A character or an ill-formed run. -/
inductive Piece where
  | char (c : Char)
  | broken (bytes : Bytes)
  deriving DecidableEq, Repr

/-- The piece that starts with `b`, and how many of the bytes after `b` belong to it. -/
def pieceAt (b : UInt8) (rest : Bytes) : Piece × Nat :=
  match lead? b with
  | none => (.broken [b], 0)
  | some l =>
    let tail := continuation l.follow l.low l.high rest
    if tail.length = l.follow then
      (.char (Char.ofNat (tail.foldl (fun n t => n * 64 + t.toNat % 64) l.share)), tail.length)
    else (.broken (b :: tail), tail.length)

/-- The pieces of a byte string. -/
def pieces : Bytes → List Piece
  | [] => []
  | b :: rest => (pieceAt b rest).1 :: pieces (rest.drop (pieceAt b rest).2)
termination_by bs => bs.length
decreasing_by simp only [List.length_drop, List.length_cons]; omega

/-- The character of a well-formed piece. -/
def Piece.char? : Piece → Option Char
  | .char c => some c
  | .broken _ => none

/-- The character shown for a piece, U+FFFD for an ill-formed one. -/
def Piece.shown : Piece → Char
  | .char c => c
  | .broken _ => '�'

/-- The text of a well-formed byte string. -/
def decode? (bs : Bytes) : Option (List Char) := (pieces bs).mapM Piece.char?

/-- The text of a byte string with every ill-formed run shown as U+FFFD. -/
def repaired (bs : Bytes) : List Char := (pieces bs).map Piece.shown

/-- The repaired text as a string. -/
def display (bs : Bytes) : String := String.ofList (repaired bs)

end AdaSupport.Utf8
