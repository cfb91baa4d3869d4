import AdaSupport.Bytes

/-!
# Input streams

A stream delivers its bytes in chunks. How the bytes still to come are cut is up to the device: each
time the stream is asked, `cuts` decides how many are shown, at least one while any are left. Once
all are used up the stream either ends or fails, and does so again whenever it is asked.

* `Stream.fill`: the bytes now in view.
* `Stream.consume`: pass over bytes in view.
* `Stream.takeLine`: consume through the next newline, but no more than a given number of bytes.
* `Stream.skipBlanks`: consume the blanks in front, line breaks included.
-/

namespace AdaSupport

/-- What a stream does once its bytes are used up. -/
inductive Ending where
  | endOfInput
  | failure
  deriving DecidableEq, Repr

/-- An input stream. -/
structure Stream where
  /-- The bytes not yet consumed. -/
  rest : Bytes
  /-- What happens after them. -/
  ending : Ending
  /-- One less than the number of bytes shown at each request. -/
  cuts : Nat → Nat
  /-- The number of requests so far. -/
  requests : Nat

/-- The result of a read: something, nothing, or a failure of the device. -/
inductive Reading (α : Type) where
  | found (value : α)
  | nothing
  | failed
  deriving DecidableEq, Repr

/-- The value found, or else the given one. -/
def Reading.getD {α : Type} (r : Reading α) (old : α) : α :=
  match r with
  | .found v => v
  | _ => old

namespace Bytes

/-- The bytes through the first newline, all of them when there is none. -/
def throughNewline : Bytes → Bytes
  | [] => []
  | b :: rest => if b = newline then [b] else b :: throughNewline rest

theorem throughNewline_ne_nil {bs : Bytes} (h : bs ≠ []) : throughNewline bs ≠ [] := by
  cases bs with
  | nil => exact absurd rfl h
  | cons b rest => simp only [throughNewline]; split <;> simp

end Bytes

namespace Stream

/-- A stream over the given bytes. -/
def ofBytes (bs : Bytes) (ending : Ending) (cuts : Nat → Nat) : Stream := ⟨bs, ending, cuts, 0⟩

/-- The bytes in view, empty at the end of input, and none when the device fails. -/
def fill (s : Stream) : Option Bytes × Stream :=
  let next := { s with requests := s.requests + 1 }
  if s.rest = [] then
    (match s.ending with
      | .endOfInput => some []
      | .failure => none, next)
  else (some (s.rest.take (s.cuts s.requests + 1)), next)

/-- The stream past its first `n` bytes. -/
def consume (s : Stream) (n : Nat) : Stream := { s with rest := s.rest.drop n }

@[simp] theorem rest_fill (s : Stream) : s.fill.2.rest = s.rest := by
  unfold fill; split <;> rfl

theorem rest_ne_nil_of_fill {s : Stream} {view : Bytes} (h : s.fill.1 = some view)
    (hv : view ≠ []) : s.rest ≠ [] := by
  intro hr
  unfold fill at h
  rw [if_pos hr] at h
  cases he : s.ending <;> simp only [he, Option.some.injEq, reduceCtorEq] at h
  exact hv h.symm

/-- The bytes consumed up to and with the next newline, at most `limit` of them, whether the device
failed on the way, and the stream behind them. -/
def takeLine (s : Stream) (limit : Nat) : Bytes × Bool × Stream :=
  if limit = 0 then ([], false, s)
  else
    match s.fill with
    | (none, s) => ([], true, s)
    | (some view, s) =>
      if _h : view.take limit = [] then ([], false, s)
      else
        let taken := Bytes.throughNewline (view.take limit)
        let s := s.consume taken.length
        if taken.endsLine then (taken, false, s)
        else
          let (more, failed, s) := s.takeLine (limit - taken.length)
          (taken ++ more, failed, s)
termination_by limit
decreasing_by
  have := List.length_pos_iff.mpr (Bytes.throughNewline_ne_nil _h)
  omega

/-- The stream in front of its next byte that is not blank, if there is one. -/
def skipBlanks (s : Stream) : Reading Unit × Stream :=
  match _hs : s.fill with
  | (none, t) => (.failed, t)
  | (some view, t) =>
    if _hv : view = [] then (.nothing, t)
    else
      let blanks := view.takeWhile Bytes.isBlank
      if _hb : blanks.length = view.length then skipBlanks (t.consume blanks.length)
      else (.found (), t.consume blanks.length)
termination_by s.rest.length
decreasing_by
  have ht : t.rest = s.rest := by rw [← rest_fill s, _hs]
  have hr := List.length_pos_iff.mpr (rest_ne_nil_of_fill (by rw [_hs]) _hv)
  have hv := List.length_pos_iff.mpr _hv
  have hb : (view.takeWhile Bytes.isBlank).length = view.length := _hb
  simp only [consume, List.length_drop, ht]
  omega

end Stream

end AdaSupport
