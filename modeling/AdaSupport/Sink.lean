import AdaSupport.Text

/-!
# Writing text

* `Text.writes`: what a put operation writes, the text and then the newline.
* `Sink`: a destination of bounded size. A write that does not fit stores what does and fails.
* `Sink.put`: a put operation on a sink.
-/

namespace AdaSupport

/-- The writes of a put operation, in order. An absent text writes nothing, not even the newline. -/
def Text.writes (t : Text) (line : Bool) : List Bytes :=
  match t with
  | none => []
  | some bs => if line then [bs, [Bytes.newline]] else [bs]

/-- A destination that holds at most `limit` bytes, or any number without a limit. -/
structure Sink where
  limit : Option Nat
  held : Bytes

namespace Sink

/-- Whether everything fits, and the sink with what does. -/
def write (s : Sink) (bs : Bytes) : Bool × Sink :=
  match s.limit with
  | none => (true, { s with held := s.held ++ bs })
  | some limit =>
    let room := limit - s.held.length
    (bs.length ≤ room, { s with held := s.held ++ bs.take room })

/-- Perform writes up to the first that fails. -/
def writeAll (s : Sink) : List Bytes → Bool × Sink
  | [] => (true, s)
  | bs :: more =>
    match s.write bs with
    | (true, s) => s.writeAll more
    | (false, s) => (false, s)

/-- Put a text, with a newline behind it when `line` is set. -/
def put (s : Sink) (t : Text) (line : Bool) : Bool × Sink := s.writeAll (t.writes line)

end Sink

end AdaSupport
