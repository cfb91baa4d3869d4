import AdaSupport.Bytes

/-!
# Decimal digits

Natural numbers and their decimal digits, most significant first.

* `digits n`: the digits of `n` without leading zeros, one zero for `0`.
* `value ds`: the number that a run of digits denotes.
* `cappedValue cap ds`: the same, cut at `cap`.
* `leadingValue bound ds`: the same for the first digits only, those that take it to `bound`.
* `value_digits`: reading the digits of a number gives it back.
-/

namespace AdaSupport.Decimal

/-- The byte of a digit below ten. -/
def digit (d : Nat) : UInt8 := (48 + d).toUInt8

/-- The decimal digits of a number. -/
def digits (n : Nat) : Bytes :=
  if n < 10 then [digit n] else digits (n / 10) ++ [digit (n % 10)]
termination_by n
decreasing_by omega

/-- How many decimal digits a number has. -/
def width (n : Nat) : Nat := if n < 10 then 1 else width (n / 10) + 1
termination_by n
decreasing_by omega

/-- The number denoted by a run of digits. -/
def value (ds : Bytes) : Nat := ds.foldl (fun n b => 10 * n + Bytes.digitValue b) 0

/-- The number denoted by a run of digits, at most `cap`. It is cut after every digit, so no number
on the way is larger than `10 * cap + 9`. -/
def cappedValue (cap : Nat) (ds : Bytes) : Nat :=
  ds.foldl (fun n b => min (10 * n + Bytes.digitValue b) cap) 0

/-- The number denoted by the first digits of a run, as many as it takes to reach `bound`. When the
whole run stays below, all of them count. -/
def leadingValue (bound : Nat) (ds : Bytes) : Nat :=
  ds.foldl (fun n b => if n < bound then 10 * n + Bytes.digitValue b else n) 0

theorem digitValue_digit {d : Nat} (h : d < 10) : Bytes.digitValue (digit d) = d := by
  simp only [Bytes.digitValue, digit, Nat.toUInt8, UInt8.toNat_ofNat']
  omega

theorem isDigit_digit {d : Nat} (h : d < 10) : Bytes.isDigit (digit d) = true := by
  simp only [Bytes.isDigit, digit, Nat.toUInt8, UInt8.le_iff_toNat_le, UInt8.toNat_ofNat',
    Bool.and_eq_true, decide_eq_true_eq]
  refine ⟨?_, ?_⟩ <;> simp <;> omega

theorem value_append_singleton (ds : Bytes) (b : UInt8) :
    value (ds ++ [b]) = 10 * value ds + Bytes.digitValue b := by
  simp [value]

/-- **The digits of a number read back as the number.** -/
theorem value_digits (n : Nat) : value (digits n) = n := by
  fun_induction digits n with
  | case1 n h => simp [value, digitValue_digit h]
  | case2 n h ih =>
    rw [value_append_singleton, ih, digitValue_digit (Nat.mod_lt _ (by decide))]
    omega

theorem length_digits (n : Nat) : (digits n).length = width n := by
  fun_induction digits n with
  | case1 n h => rw [width, if_pos h]; rfl
  | case2 n h ih => rw [width, if_neg h, List.length_append, ih]; rfl

theorem isDigit_of_mem_digits {n : Nat} {b : UInt8} (hb : b ∈ digits n) :
    Bytes.isDigit b = true := by
  fun_induction digits n with
  | case1 n h => rw [List.mem_singleton.mp hb]; exact isDigit_digit h
  | case2 n h ih =>
    rcases List.mem_append.mp hb with hb | hb
    · exact ih hb
    · rw [List.mem_singleton.mp hb]; exact isDigit_digit (Nat.mod_lt _ (by decide))

end AdaSupport.Decimal
