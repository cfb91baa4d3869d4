import AdaSupport.Numeral.Scanned
import AdaSupport.Stream

/-!
# Reading lines and numbers

* `Stream.readLine`: the next line, or as much of it as fits, into a buffer of fixed size.
* `Stream.readInteger`, `Stream.readReal`: the number at the next token. The rest of its line is
  dropped, number or not.
-/

namespace AdaSupport.Stream

/-- The number of bytes that a program's line buffer holds. -/
def lineCapacity : Nat := 256

/-- Read a line into a buffer with the given bytes: at most one byte less than its size, without the
newline, and a zero byte behind them. The result is the number of bytes stored. When the device
fails, the bytes read before stay in the buffer. -/
def readLine (s : Stream) (buffer : Bytes) : Reading Nat × Bytes × Stream :=
  let (taken, failed, s) := s.takeLine (buffer.length - 1)
  if failed then (.failed, taken ++ buffer.drop taken.length, s)
  else if taken = [] then (.nothing, buffer, s)
  else
    let line := if taken.endsLine then taken.dropLast else taken
    (.found line.length, line ++ 0 :: buffer.drop (line.length + 1), s)

/-- The rest of the line that holds the next token, from the token on. -/
def tokenLine (s : Stream) : Reading Bytes × Stream :=
  match s.skipBlanks with
  | (.failed, s) => (.failed, s)
  | (.nothing, s) => (.nothing, s)
  | (.found (), s) =>
    match s.takeLine (s.rest.length + 1) with
    | (_, true, s) => (.failed, s)
    | (line, false, s) => (.found line, s)

/-- The number that `scan` finds at the next token. -/
def readNumber {α : Type} (scan : Bytes → Option α) (s : Stream) : Reading α × Stream :=
  match s.tokenLine with
  | (.failed, s) => (.failed, s)
  | (.nothing, s) => (.nothing, s)
  | (.found line, s) =>
    match scan line with
    | some v => (.found v, s)
    | none => (.nothing, s)

/-- The integer at the next token. -/
def readInteger : Stream → Reading Int32 × Stream := readNumber Numeral.scanInteger

/-- The real at the next token. -/
def readReal : Stream → Reading Binary64 × Stream := readNumber Numeral.scanReal

end AdaSupport.Stream
