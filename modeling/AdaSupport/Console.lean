import AdaSupport.Text
import AdaSupport.Sink

/-!
# The console

Standard output is buffered by lines: text through its last newline goes to the device at once, the
rest waits for a later newline, a flush, or a full buffer. Standard error is a device of its own and
is not buffered. A broken device takes nothing and every write to it fails.

* `Device.write`: bytes on their way to a device.
* `Output.write`, `Output.flush`: buffered writing. The first component says whether it succeeded.
* `Output.put`: a put operation; it stops at the first write that fails.
-/

namespace AdaSupport

/-- The far end of a stream, and what it has received. -/
structure Device where
  works : Bool
  received : Bytes
  deriving DecidableEq, Repr

namespace Device

/-- A device that has received nothing. -/
def fresh (works : Bool) : Device := ⟨works, []⟩

/-- Send bytes to a device. -/
def write (d : Device) (bs : Bytes) : Bool × Device :=
  if d.works then (true, { d with received := d.received ++ bs }) else (bs = [], d)

end Device

/-- Standard output: the device and the bytes that wait for it. -/
structure Output where
  device : Device
  pending : Bytes
  deriving DecidableEq, Repr

namespace Output

/-- The most bytes that may wait. -/
def bufferSize : Nat := 1024

/-- Output on a device that has received nothing. -/
def fresh (works : Bool) : Output := ⟨.fresh works, []⟩

/-- Everything written so far, received or waiting. -/
def written (o : Output) : Bytes := o.device.received ++ o.pending

/-- Send what waits. -/
def flush (o : Output) : Bool × Output :=
  match o.device.write o.pending with
  | (true, d) => (true, ⟨d, []⟩)
  | (false, d) => (false, ⟨d, o.pending⟩)

/-- Send bytes past the buffer. -/
def send (o : Output) (bs : Bytes) : Bool × Output :=
  let (ok, d) := o.device.write bs
  (ok, { o with device := d })

/-- Two writing steps, the second only if the first succeeds. -/
def andThen (r : Bool × Output) (next : Output → Bool × Output) : Bool × Output :=
  match r with
  | (true, o) => next o
  | (false, o) => (false, o)

/-- Let bytes wait. What waits already is sent first when there is no room for both, and bytes that
fill a whole buffer are sent after it. -/
def hold (o : Output) (bs : Bytes) : Bool × Output :=
  let room := bufferSize - o.pending.length
  andThen (if room < bs.length then o.flush else (true, o)) fun o =>
    if bs.length < bufferSize then (true, { o with pending := o.pending ++ bs }) else o.send bs

/-- Write bytes: all through the last newline is sent, the rest waits. -/
def write (o : Output) (bs : Bytes) : Bool × Output :=
  if bs.lines = [] then
    andThen (if o.pending.endsLine then o.flush else (true, o)) fun o => o.hold bs
  else
    andThen (if o.pending = [] then o.send bs.lines else andThen (o.hold bs.lines) flush) fun o =>
      o.hold bs.lastLine

/-- Perform writes up to the first that fails. -/
def writeAll (o : Output) : List Bytes → Bool × Output
  | [] => (true, o)
  | bs :: more => andThen (o.write bs) fun o => o.writeAll more

/-- Put a text, with a newline behind it when `line` is set. -/
def put (o : Output) (t : Text) (line : Bool) : Output := (o.writeAll (t.writes line)).2

end Output

end AdaSupport
