import AdaSupport.Proofs.DrawPositions
import Mathlib.Data.Int.CardIntervalMod

/-!
# How often a range gives each of its values

A range takes the remainder of a draw by its size. The `2 ^ 31` draws are spread over its values in
turn, so the values at the low end are given once more than the others, unless the size divides
`2 ^ 31`. A range with more values than there are draws leaves out those at its upper end.

* `inWord?`, `integerInWords?`: the computation in words of fixed width; `integerInWords?_eq`: no
  result on the way leaves its word.
* `span`: the size of a range; `toInt_integer_eq_iff`: the draws that give a value.
* `timesGiven`: the number of these draws; **`timesGiven_eq`**: it is the quotient of `2 ^ 31` by
  the size, and one more for the values below the remainder.
* **`integer_counts`**: the range, the symmetry and the counts together.
-/

namespace AdaSupport

namespace Draw

/-! ## Words of fixed width -/

/-- A number, if it fits into a signed word. -/
def inWord? (bits : ℕ) (n : ℤ) : Option ℤ :=
  if -2 ^ (bits - 1) ≤ n ∧ n < 2 ^ (bits - 1) then some n else none

/-- A remainder in words of that width, with the sign of the dividend; none by zero. -/
def remainder? (bits : ℕ) (n m : ℤ) : Option ℤ :=
  if m = 0 then none else inWord? bits (n.tmod m)

/-- The number that a draw gives between two bounds, in words of 64 bits. There is no result when
one on the way leaves its word, when the divisor is zero, or when the number does not fit into 32
bits. -/
def integerInWords? (d : Draw) (a b : Int32) : Option Int32 := do
  let low := if b < a then b else a
  let high := if b < a then a else b
  let width ← inWord? 64 (high.toInt - low.toInt)
  let span ← inWord? 64 (width + 1)
  let draw ← inWord? 64 d
  let offset ← remainder? 64 draw span
  let sum ← inWord? 64 (low.toInt + offset)
  let value ← inWord? 32 sum
  some (.ofInt value)

theorem inWord?_of_le {bits : ℕ} {n : ℤ} (h : -2 ^ (bits - 1) ≤ n) (h' : n < 2 ^ (bits - 1)) :
    inWord? bits n = some n :=
  if_pos ⟨h, h'⟩

/-- The number of values between two bounds. -/
def span (a b : Int32) : ℕ := (b.toInt - a.toInt).natAbs + 1

theorem span_pos (a b : Int32) : 0 < span a b := Nat.succ_pos _

theorem span_eq (a b : Int32) :
    (span a b : ℤ) = max a.toInt b.toInt - min a.toInt b.toInt + 1 := by
  rw [span]
  omega

section

variable (d : ℕ) (a b : Int32)

theorem toInt_integer_eq :
    (Draw.integer d a b).toInt = min a.toInt b.toInt + (d % span a b : ℕ) := by
  rw [toInt_integer, Int.natCast_emod, span_eq]

theorem min_le_toInt_integer : min a.toInt b.toInt ≤ (Draw.integer d a b).toInt := by
  rw [toInt_integer_eq]
  omega

theorem toInt_integer_le_max : (Draw.integer d a b).toInt ≤ max a.toInt b.toInt := by
  have hlt : d % span a b < span a b := Nat.mod_lt d (span_pos a b)
  have hspan := span_eq a b
  rw [toInt_integer_eq]
  omega

theorem integer_comm : Draw.integer d a b = Draw.integer d b a := by
  rw [integer, integer, min_comm, max_comm]

end

theorem toInt_low (a b : Int32) : (if b < a then b else a).toInt = min a.toInt b.toInt := by
  split_ifs with h <;> rw [Int32.lt_iff_toInt_lt] at h <;> omega

theorem toInt_high (a b : Int32) : (if b < a then a else b).toInt = max a.toInt b.toInt := by
  split_ifs with h <;> rw [Int32.lt_iff_toInt_lt] at h <;> omega

/-- **No result on the way leaves its word.** -/
theorem integerInWords?_eq {d : ℕ} (hd : d < 2 ^ 31) (a b : Int32) :
    integerInWords? d a b = some (Draw.integer d a b) := by
  have hspan := span_eq a b
  have hvalue := toInt_integer_eq d a b
  have hfits := (Draw.integer d a b).le_toInt
  have hfits' := (Draw.integer d a b).toInt_lt
  have ha := a.le_toInt
  have ha' := a.toInt_lt
  have hb := b.le_toInt
  have hb' := b.toInt_lt
  have hmod : d % span a b ≤ d := Nat.mod_le d _
  have hwidth : inWord? 64 (max a.toInt b.toInt - min a.toInt b.toInt) =
      some (max a.toInt b.toInt - min a.toInt b.toInt) := inWord?_of_le (by omega) (by omega)
  have hsize : inWord? 64 (span a b) = some (span a b : ℤ) :=
    inWord?_of_le (by omega) (by omega)
  have hdraw : inWord? 64 d = some (d : ℤ) := inWord?_of_le (by omega) (by omega)
  have hoffset : remainder? 64 d (span a b) = some ((d % span a b : ℕ) : ℤ) := by
    rw [remainder?, if_neg (Int.natCast_ne_zero.mpr (span_pos a b).ne'),
      Int.tmod_eq_emod_of_nonneg (Int.natCast_nonneg d), ← Int.natCast_emod]
    exact inWord?_of_le (by omega) (by omega)
  have hsum : inWord? 64 (Draw.integer d a b).toInt = some (Draw.integer d a b).toInt :=
    inWord?_of_le (by omega) (by omega)
  have hfit : inWord? 32 (Draw.integer d a b).toInt = some (Draw.integer d a b).toInt :=
    inWord?_of_le hfits hfits'
  rw [integerInWords?, toInt_low, toInt_high, hwidth, Option.bind_eq_bind, Option.bind_some,
    ← hspan, hsize, Option.bind_some, hdraw, Option.bind_some, hoffset, Option.bind_some, ← hvalue,
    hsum, Option.bind_some, hfit, Option.bind_some, Int32.ofInt_toInt]

/-! ## Counts -/

/-- The numbers below `2 ^ 31` are the draws that words give. -/
theorem lt_iff_exists_ofWord (d : ℕ) : d < 2 ^ 31 ↔ ∃ w, ofWord w = d := by
  constructor
  · intro h
    refine ⟨.ofNat (2 * d), ?_⟩
    rw [ofWord, UInt32.toNat_ofNat_of_lt' (by rw [UInt32.size]; omega)]
    exact Nat.mul_div_cancel_left d Nat.two_pos
  · rintro ⟨w, rfl⟩
    exact ofWord_lt w

/-- The draws that give a value are those that leave its place in the range as remainder. -/
theorem toInt_integer_eq_iff (d : ℕ) (a b : Int32) {k : ℕ} (hk : k < span a b) :
    (Draw.integer d a b).toInt = min a.toInt b.toInt + k ↔ d ≡ k [MOD span a b] := by
  rw [toInt_integer_eq, Nat.ModEq, Nat.mod_eq_of_lt hk]
  omega

/-- The number of draws for which a range gives the value. -/
def timesGiven (a b : Int32) (value : ℤ) : ℕ :=
  ((Finset.range (2 ^ 31)).filter fun d => (Draw.integer d a b).toInt = value).card

/-- **The draws are spread over the values of a range in turn.** -/
theorem timesGiven_eq (a b : Int32) {k : ℕ} (hk : k < span a b) :
    timesGiven a b (min a.toInt b.toInt + k) =
      2 ^ 31 / span a b + if k < 2 ^ 31 % span a b then 1 else 0 := by
  simp only [timesGiven, toInt_integer_eq_iff _ a b hk]
  rw [← Nat.count_eq_card_filter_range, Nat.count_modEq_card _ (span_pos a b), Nat.mod_eq_of_lt hk]

end Draw

namespace Generator

open Draw

/-- **A range gives each of its values by the remainder of the draw**, which is made from the next
word of the keystream. The order of the bounds does not matter, and what is given lies between them;
on the way all numbers fit into their words. Of all draws, those that give a value are the quotient
of `2 ^ 31` by the size of the range, and one more for the values that come first, as many as the
remainder says. -/
theorem integer_counts (a b : Int32) :
    (∀ g : Generator, g.draw.1 = ofWord (Keystream.word g.key g.position) ∧
        g.integer a b = (g.draw.1.integer a b, g.draw.2) ∧
        g.integer a b = g.integer b a ∧
        min a.toInt b.toInt ≤ (g.integer a b).1.toInt ∧
        (g.integer a b).1.toInt ≤ max a.toInt b.toInt ∧
        g.draw.1.integerInWords? a b = some (g.integer a b).1) ∧
      (∀ d : ℕ, d < 2 ^ 31 ↔ ∃ w, ofWord w = d) ∧
      (∀ k < span a b, timesGiven a b (min a.toInt b.toInt + k) =
        2 ^ 31 / span a b + if k < 2 ^ 31 % span a b then 1 else 0) ∧
      (∀ j k, j ≤ k → k < span a b →
        timesGiven a b (min a.toInt b.toInt + k) ≤ timesGiven a b (min a.toInt b.toInt + j) ∧
        timesGiven a b (min a.toInt b.toInt + j) ≤
          timesGiven a b (min a.toInt b.toInt + k) + 1) ∧
      (2 ^ 31 < span a b → ∀ k < span a b,
        timesGiven a b (min a.toInt b.toInt + k) = 0 ↔ 2 ^ 31 ≤ k) := by
  refine ⟨fun g => ⟨rfl, rfl, ?_, min_le_toInt_integer _ a b, toInt_integer_le_max _ a b,
    integerInWords?_eq (ofWord_lt _) a b⟩, lt_iff_exists_ofWord, fun k => timesGiven_eq a b, ?_, ?_⟩
  · exact congrArg (·, g.draw.2) (integer_comm g.draw.1 a b)
  · intro j k hjk hk
    rw [timesGiven_eq a b hk, timesGiven_eq a b (hjk.trans_lt hk)]
    split_ifs <;> omega
  · intro hspan k hk
    rw [timesGiven_eq a b hk, Nat.div_eq_of_lt hspan, Nat.mod_eq_of_lt hspan]
    split_ifs with h
    · exact iff_of_false id h.not_ge
    · exact iff_of_true rfl (not_lt.mp h)

/-- The full range never reaches its upper half, and a die gives a two once more than a three. -/
theorem integer_counts_full_range :
    timesGiven (-2147483648) 2147483647 0 = 0 ∧
      timesGiven 6 1 2 = 357913942 ∧ timesGiven 6 1 3 = 357913941 ∧
      timesGiven 6 1 5 ≤ timesGiven 6 1 2 := by
  obtain ⟨-, -, -, -, hreached⟩ := integer_counts (-2147483648) 2147483647
  obtain ⟨-, -, hdie, hfewer, -⟩ := integer_counts 6 1
  have hzero : min (-2147483648 : Int32).toInt (2147483647 : Int32).toInt + (2 ^ 31 : ℕ) = 0 := by
    decide
  have hone : min (6 : Int32).toInt (1 : Int32).toInt = 1 := by decide
  have hnever := (hreached (by decide) (2 ^ 31) (by decide)).mpr le_rfl
  rw [hzero] at hnever
  rw [hone] at hdie hfewer
  exact ⟨hnever, hdie 1 (by decide), hdie 2 (by decide),
    (hfewer 1 4 (by decide) (by decide)).1⟩

end Generator

end AdaSupport
