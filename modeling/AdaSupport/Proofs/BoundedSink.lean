import AdaSupport.Proofs.Execution
import Mathlib.Data.Nat.Notation

/-!
# Writing to a bounded sink

A put operation may fail in front of its text, inside it, or between text and newline, and later
operations go on against a full sink. What the sink holds is the front of all that was meant for it,
whichever operations failed.

* `Sink.HoldsFront`: the sink holds the front of the given bytes. Every write keeps this up
  (`HoldsFront.write`), and so does every operation (`HoldsFront.put`).
* `Sink.fits`: whether bytes behind others stay within the limit, or are none.
* **`putAll_holds_front`**: what a sink holds after any operations, and which of them succeeded.
-/

namespace AdaSupport

/-- A put operation: its text, and whether a newline follows. -/
structure Put where
  text : Text
  line : Bool
  deriving DecidableEq, Repr

/-- What an operation is meant to write. -/
def Put.meant (p : Put) : Bytes := p.text.printed p.line

namespace Sink

/-- An empty sink for at most `limit` bytes. -/
def bounded (limit : ℕ) : Sink := ⟨some limit, []⟩

/-- Operations one after the other: which of them succeed, and the sink after the last. -/
def putAll (s : Sink) : List Put → List Bool × Sink
  | [] => ([], s)
  | p :: more =>
    let (ok, s) := s.put p.text p.line
    let (oks, s) := s.putAll more
    (ok :: oks, s)

/-! ## Writes -/

/-- The sink holds as much of the front of `bs` as its limit allows. -/
structure HoldsFront (s : Sink) (limit : ℕ) (bs : Bytes) : Prop where
  limit_eq : s.limit = some limit
  held_eq : s.held = bs.take limit

theorem holdsFront_bounded (limit : ℕ) : (bounded limit).HoldsFront limit [] :=
  ⟨rfl, List.take_nil.symm⟩

/-- Whether `bs` behind `before` stays within the limit, or is nothing. -/
def fits (limit : ℕ) (before bs : Bytes) : Bool := bs = [] ∨ (before ++ bs).length ≤ limit

theorem fits_append (limit : ℕ) (before bs more : Bytes) : fits limit before (bs ++ more) =
    (fits limit before bs && fits limit (before ++ bs) more) := by
  rw [Bool.eq_iff_iff, Bool.and_eq_true]
  simp only [fits, decide_eq_true_eq, ← List.length_eq_zero_iff, List.length_append]
  omega

section Writes

variable {s : Sink} {limit : ℕ} {before : Bytes}

/-- What is meant for a full sink does not change what it holds. -/
theorem HoldsFront.append_of_le {bs : Bytes} (h : s.HoldsFront limit bs) (hfull : limit ≤ bs.length)
    (more : Bytes) : s.HoldsFront limit (bs ++ more) :=
  ⟨h.limit_eq, by rw [List.take_append_of_le_length hfull, h.held_eq]⟩

theorem HoldsFront.write (h : s.HoldsFront limit before) (bs : Bytes) :
    (s.write bs).1 = fits limit before bs ∧ (s.write bs).2.HoldsFront limit (before ++ bs) := by
  have hroom : limit - s.held.length = limit - before.length := by
    rw [h.held_eq, List.length_take]
    omega
  simp only [Sink.write, h.limit_eq, hroom]
  refine ⟨?_, rfl, ?_⟩
  · rw [fits, decide_eq_decide, ← List.length_eq_zero_iff, List.length_append]
    omega
  · rw [h.held_eq, List.take_append]

theorem writeAll_cons (s : Sink) (bs : Bytes) (more : List Bytes) : s.writeAll (bs :: more) =
    if (s.write bs).1 then (s.write bs).2.writeAll more else (false, (s.write bs).2) := by
  rw [Sink.writeAll]
  rcases s.write bs with ⟨_ | _, s'⟩ <;> rfl

theorem HoldsFront.writeAll (h : s.HoldsFront limit before) (writes : List Bytes) :
    (s.writeAll writes).1 = fits limit before writes.flatten ∧
      (s.writeAll writes).2.HoldsFront limit (before ++ writes.flatten) := by
  induction writes generalizing s before with
  | nil => exact ⟨rfl, by rwa [List.flatten_nil, List.append_nil]⟩
  | cons bs more ih =>
    obtain ⟨hok, hnext⟩ := h.write bs
    rw [List.flatten_cons, fits_append, ← List.append_assoc, ← hok, writeAll_cons]
    cases hwritten : (s.write bs).1 with
    | true => exact ih hnext
    | false =>
      -- the writes left out are meant for a sink that is full
      have hfull : limit ≤ (before ++ bs).length := by
        rw [hwritten, fits, eq_comm, decide_eq_false_iff_not] at hok
        omega
      exact ⟨rfl, hnext.append_of_le hfull more.flatten⟩

theorem HoldsFront.put (h : s.HoldsFront limit before) (p : Put) :
    (s.put p.text p.line).1 = fits limit before p.meant ∧
      (s.put p.text p.line).2.HoldsFront limit (before ++ p.meant) := by
  rw [Put.meant, ← Text.flatten_writes]
  exact h.writeAll (p.text.writes p.line)

end Writes

/-! ## Operations -/

theorem HoldsFront.putAll {s : Sink} {limit : ℕ} {before : Bytes} (h : s.HoldsFront limit before)
    (puts : List Put) :
    (s.putAll puts).2.HoldsFront limit (before ++ puts.flatMap Put.meant) ∧
      ∀ i : ℕ, (s.putAll puts).1[i]? = puts[i]?.map fun p =>
        fits limit (before ++ (puts.take i).flatMap Put.meant) p.meant := by
  induction puts generalizing s before with
  | nil => exact ⟨by rwa [List.flatMap_nil, List.append_nil], fun i => rfl⟩
  | cons p puts ih =>
    obtain ⟨hok, hnext⟩ := h.put p
    obtain ⟨hheld, hoks⟩ := ih hnext
    refine ⟨by rwa [List.flatMap_cons, ← List.append_assoc], fun i => ?_⟩
    cases i with
    | zero => simp [Sink.putAll, hok]
    | succ i => simpa [Sink.putAll] using hoks i

/-- **A sink holds the front of what was meant for it.** After any operations it holds as many of
the bytes that all of them were meant to write as its limit allows. An operation succeeds exactly
when it was meant to write nothing, or when all that was meant up to its end stays within the
limit. -/
theorem putAll_holds_front (limit : ℕ) (puts : List Put) :
    ((bounded limit).putAll puts).2.held = (puts.flatMap Put.meant).take limit ∧
      ∀ i : ℕ, ((bounded limit).putAll puts).1[i]? = puts[i]?.map fun p =>
        decide (p.meant = [] ∨ ((puts.take (i + 1)).flatMap Put.meant).length ≤ limit) := by
  obtain ⟨hheld, hoks⟩ := (holdsFront_bounded limit).putAll puts
  refine ⟨hheld.held_eq, fun i => (hoks i).trans ?_⟩
  cases hp : puts[i]? with
  | none => rfl
  | some p =>
    rw [List.take_add_one, hp]
    simp [fits]

-- the newline does not fit behind the text, and nothing after it but nothing
example : ((bounded 3).putAll
    [⟨some [97, 98, 99], true⟩, ⟨none, true⟩, ⟨some [], false⟩, ⟨some [], true⟩]).1 =
      [false, true, true, false] := by decide

end Sink

end AdaSupport
