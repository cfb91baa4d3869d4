import AdaSupport.Proofs.Agreement
import AdaSupport.Proofs.IntegerText
import Mathlib.Algebra.Order.Floor.Semifield
import Mathlib.Data.Rat.Floor

/-!
# Reals cut to integers

A real is cut toward zero and then to the range of integers. The same integer is read from its text:
the shortest decimal is in general another number than the real, but it lies on the same side of
every integer, and between `10 ^ -5` and `10 ^ 16` all digits of the whole part stand in front of
the point.

* `truncated`: a rational number cut toward zero.
* `IsNearest.natCast_lt`, `IsNearest.lt_natCast`: rounding crosses no whole number below `2 ^ 53`.
* **`min_floor_shortest`**: up to `2 ^ 53`, the shortest decimal has the whole part of its pattern.
* `neg_five_lt_pointOf`, `pointOf_le_sixteen`, `exists_whole_of_band`: numbers from `10 ^ -5` up to
  `10 ^ 16` are written out.
* **`scanInteger_ofReal`**: a real is cut to the same integer directly and through its text.
-/

namespace AdaSupport

/-- A rational number cut toward zero. -/
def truncated (q : ℚ) : ℤ := if q < 0 then ⌈q⌉ else ⌊q⌋

namespace Pattern

variable {x : ℚ} {p k : ℕ}

/-! ## Rounding and whole numbers -/

/-- The whole part of a magnitude. -/
def wholePart (p : ℕ) : ℕ := units p / unitsPerOne

theorem wholePart_zero : wholePart 0 = 0 := by
  rw [wholePart, show units 0 = 0 from rfl, Nat.zero_div]

theorem floor_value (p : ℕ) : ⌊value p⌋₊ = wholePart p := Nat.floor_div_eq_div _ _

theorem wholePart_le_value (p : ℕ) : (wholePart p : ℚ) ≤ value p :=
  floor_value p ▸ Nat.floor_le (value_nonneg p)

theorem value_lt_wholePart (p : ℕ) : value p < wholePart p + 1 :=
  floor_value p ▸ Nat.lt_floor_add_one _

theorem value_eq_natCast_iff : value p = k ↔ units p = k * unitsPerOne := by
  rw [value, div_eq_iff unitsPerOne_cast_pos.ne']
  exact_mod_cast Iff.rfl

theorem exists_value_natCast (hk : k ≤ 2 ^ 53) : ∃ q, value q = k := by
  simpa using exists_value_eq hk (t := 0) (by decide)

theorem IsNearest.natCast_lt (h : IsNearest x p) (hk : k ≤ 2 ^ 53) (hlt : k < value p) : k < x := by
  obtain ⟨q, hq⟩ := exists_value_natCast hk
  rw [← hq] at hlt ⊢
  have hqp := value_strictMono.lt_iff_lt.mp hlt
  have hbelow := h.isAdjacent.2.1.resolve_left (by omega)
  exact (value_strictMono.monotone (show q ≤ p - 1 by omega)).trans_lt hbelow

theorem IsNearest.lt_value (h : IsNearest x p) (hp : p < infinity) {q : ℕ} (hq : p < q) :
    x < value q :=
  (h.isAdjacent.2.2.resolve_left hp.ne).trans_le (value_strictMono.monotone hq)

theorem IsNearest.lt_natCast (h : IsNearest x p) (hp : p < infinity) (hk : k ≤ 2 ^ 53)
    (hlt : value p < k) : x < k := by
  obtain ⟨q, hq⟩ := exists_value_natCast hk
  rw [← hq] at hlt ⊢
  exact h.lt_value hp (value_strictMono.lt_iff_lt.mp hlt)

end Pattern

namespace Decimal

open Pattern Shortest

variable {p : ℕ}

/-! ## The whole part of the shortest decimal -/

/-- The number that the shortest decimal denotes. -/
def shortestValue (p : ℕ) : ℚ := (shortest p).digits * 10 ^ (shortest p).exponent

theorem shortestValue_nonneg (p : ℕ) : 0 ≤ shortestValue p := by
  unfold shortestValue
  positivity

/-- The shortest decimal of a whole number is written without a fraction. -/
theorem exists_shortestValue_eq (h0 : 0 < p) (hlt : wholePart p < 2 ^ 53)
    (heq : Pattern.value p = wholePart p) : ∃ j : ℕ, (shortest p).exponent = j ∧
      shortestValue p = ((shortest p).digits * 10 ^ j : ℕ) := by
  have hunits := value_eq_natCast_iff.mp heq
  have hone : (1 : ℚ) ≤ Pattern.value p := by
    have hpos : 0 < Pattern.value p := value_zero ▸ value_strictMono h0
    rw [heq] at hpos ⊢
    exact_mod_cast hpos
  have hlow : (10 : ℚ) ^ (0 : ℤ) < 10 ^ point p := by
    rw [zpow_zero]
    exact hone.trans_lt (value_lt_tenTo_point p)
  have hhigh : (10 : ℚ) ^ (point p - 1) < 10 ^ (17 : ℤ) := by
    refine (tenTo_point_le_value h0).trans_lt ?_
    rw [heq]
    exact_mod_cast hlt.trans (by norm_num)
  rw [zpow_lt_zpow_iff_right₀ (by norm_num)] at hlow hhigh
  obtain ⟨j, hj⟩ := Int.eq_ofNat_of_zero_le (shortest_exponent_nonneg h0 hunits hlow (by omega))
  refine ⟨j, hj, ?_⟩
  rw [shortestValue, hj, zpow_natCast, Nat.cast_mul, Nat.cast_pow, Nat.cast_ofNat]

/-- The shortest decimal does not fall below the whole part of its pattern. -/
theorem wholePart_le_shortestValue (h0 : 0 < p) (hp : p < infinity) (hlt : wholePart p < 2 ^ 53) :
    (wholePart p : ℚ) ≤ shortestValue p := by
  have hnear := isNearest_shortest h0 hp
  rcases (wholePart_le_value p).eq_or_lt with heq | hgt
  · rcases Nat.eq_zero_or_pos (wholePart p) with hzero | hpos
    · rw [hzero, Nat.cast_zero]
      exact shortestValue_nonneg p
    -- a whole number has a whole shortest decimal, which is above the whole number before it
    obtain ⟨j, -, hnat⟩ := exists_shortestValue_eq h0 hlt heq.symm
    have habove : ((wholePart p - 1 : ℕ) : ℚ) < shortestValue p := by
      refine hnear.natCast_lt (by omega) ?_
      rw [← heq]
      exact_mod_cast Nat.sub_lt hpos Nat.one_pos
    rw [hnat] at habove ⊢
    have : wholePart p - 1 < (shortest p).digits * 10 ^ j := by exact_mod_cast habove
    exact_mod_cast Nat.le_of_pred_lt this
  · exact (hnear.natCast_lt hlt.le hgt).le

theorem floor_shortestValue (h0 : 0 < p) (hp : p < infinity) (hlt : wholePart p < 2 ^ 53) :
    ⌊shortestValue p⌋₊ = wholePart p := by
  rw [Nat.floor_eq_iff (shortestValue_nonneg p)]
  refine ⟨wholePart_le_shortestValue h0 hp hlt, ?_⟩
  have hup := (isNearest_shortest h0 hp).lt_natCast hp (k := wholePart p + 1) (by omega)
    (by push_cast; exact value_lt_wholePart p)
  rwa [Nat.cast_add_one] at hup

/-- The digits of a whole number and the zeros that are left out behind them. -/
theorem exists_digits_mul_pow (h0 : 0 < p) (hp : p < infinity) (hlt : wholePart p < 2 ^ 53)
    (heq : Pattern.value p = wholePart p) : ∃ j : ℕ, (shortest p).exponent = j ∧
      (shortest p).digits * 10 ^ j = wholePart p := by
  obtain ⟨j, hj, hnat⟩ := exists_shortestValue_eq h0 hlt heq
  have hfloor := floor_shortestValue h0 hp hlt
  rw [hnat, Nat.floor_natCast] at hfloor
  exact ⟨j, hj, hfloor⟩

/-- **The shortest decimal has the whole part of its pattern**, up to `2 ^ 53`. -/
theorem min_floor_shortest (h0 : 0 < p) (hp : p < infinity) :
    min ⌊shortestValue p⌋₊ (2 ^ 53 - 1) = min (wholePart p) (2 ^ 53 - 1) := by
  by_cases hlt : wholePart p < 2 ^ 53
  · rw [floor_shortestValue h0 hp hlt]
  · have hvalue : ((2 ^ 53 - 1 : ℕ) : ℚ) < Pattern.value p := by
      refine lt_of_lt_of_le ?_ (wholePart_le_value p)
      exact_mod_cast (show 2 ^ 53 - 1 < wholePart p by omega)
    have hfloor : 2 ^ 53 - 1 ≤ ⌊shortestValue p⌋₊ :=
      Nat.le_floor ((isNearest_shortest h0 hp).natCast_lt (by norm_num) hvalue).le
    omega

end Decimal

namespace Numeral

open Pattern Decimal

/-! ## Numbers that are written out -/

section Band

variable {p : ℕ}

theorem pointOf_eq (p : ℕ) :
    pointOf p = width (shortest p).digits + (shortest p).exponent := by
  rw [pointOf, ← length_significant, Nat.cast_add]
  rfl

theorem tenTo_pointOf_bounds (h0 : 0 < p) (hp : p < infinity) :
    (10 : ℚ) ^ (pointOf p - 1) ≤ shortestValue p ∧ shortestValue p < 10 ^ pointOf p := by
  have hw := width_pos (shortest p).digits
  have hpow : (0 : ℚ) < 10 ^ (shortest p).exponent := by positivity
  have hlow : ((tenTo (width (shortest p).digits - 1) : ℕ) : ℚ) ≤ (shortest p).digits :=
    Nat.cast_le.mpr (tenTo_width_le (shortest_digits_pos h0 hp))
  have hhigh : ((shortest p).digits : ℚ) < (tenTo (width (shortest p).digits) : ℕ) :=
    Nat.cast_lt.mpr (lt_tenTo_width _)
  have hsplit : ∀ j : ℕ, (10 : ℚ) ^ ((j : ℤ) + (shortest p).exponent) =
      (tenTo j : ℕ) * 10 ^ (shortest p).exponent := fun j => by
    rw [zpow_add₀ (by norm_num), zpow_natCast, tenTo_eq_pow, Nat.cast_pow, Nat.cast_ofNat]
  have hpred : pointOf p - 1 =
      (width (shortest p).digits - 1 : ℕ) + (shortest p).exponent := by
    rw [pointOf_eq]; omega
  rw [hpred, pointOf_eq, hsplit, hsplit]
  exact ⟨mul_le_mul_of_nonneg_right hlow hpow.le, mul_lt_mul_of_pos_right hhigh hpow⟩

theorem neg_five_lt_pointOf (h0 : 0 < p) (hp : p < infinity)
    (h : 10 ^ (-5 : ℤ) ≤ Pattern.value p) : -5 < pointOf p := by
  -- the shortest decimal stays above the power of ten below the number
  have hpoint : (10 : ℚ) ^ (-5 : ℤ) < 10 ^ Shortest.point p := h.trans_lt (value_lt_tenTo_point p)
  have hchain : (10 : ℚ) ^ (Shortest.point p - 1) < 10 ^ pointOf p :=
    (tenTo_point_le_shortest h0).trans_lt (tenTo_pointOf_bounds h0 hp).2
  rw [zpow_lt_zpow_iff_right₀ (by norm_num)] at hpoint hchain
  omega

theorem pointOf_le_sixteen (h0 : 0 < p) (hp : p < infinity) (h : Pattern.value p < 10 ^ 16) :
    pointOf p ≤ 16 := by
  -- `10 ^ 16` is the value of a pattern, which rounding does not cross
  obtain ⟨q, hq⟩ := exists_value_eq (m := 5 ^ 16) (by norm_num) (t := 16) (by decide)
  have hten : Pattern.value q = 10 ^ (16 : ℤ) := by rw [hq]; norm_num
  have hpq : p < q := by
    rw [← value_strictMono.lt_iff_lt, hten]
    exact_mod_cast h
  have hchain : (10 : ℚ) ^ (pointOf p - 1) < 10 ^ (16 : ℤ) :=
    (tenTo_pointOf_bounds h0 hp).1.trans_lt (hten ▸ (isNearest_shortest h0 hp).lt_value hp hpq)
  rw [zpow_lt_zpow_iff_right₀ (by norm_num)] at hchain
  omega

theorem parts_exponent_eq_none (ds : Bytes) {point : ℤ} (hlow : -5 < point) (hhigh : point ≤ 16) :
    (parts ds point).2.2 = none := by
  simp only [parts]
  split_ifs with h₁ h₂ h₃
  · rfl
  · rfl
  · rfl
  · omega

/-- Without an exponent, the digits in front of the point are the whole part. -/
theorem value_whole_parts {ds : Bytes} {point : ℤ} (hd : ds.AllDigits) (hne : ds ≠ [])
    (h : (parts ds point).2.2 = none) :
    Decimal.value (parts ds point).1 =
      ⌊(Decimal.value ds : ℚ) * 10 ^ (point - ds.length)⌋₊ := by
  have hvalue := value_parts point hne
  have hfraction := (allDigits_parts point hd).2
  have hlt := Form.run_lt (decimal_isRun_iff.mpr hfraction)
  rw [decimal_run hfraction] at hlt
  generalize parts ds point = w at *
  have hpos : (0 : ℚ) < 10 ^ w.2.1.length := by positivity
  have hlt' : (Decimal.value w.2.1 : ℚ) < 10 ^ w.2.1.length := by exact_mod_cast hlt
  rw [h, Option.getD_none, zero_sub, zpow_neg, zpow_natCast, value_append, Nat.cast_add,
    Nat.cast_mul, Nat.cast_pow, Nat.cast_ofNat, ← div_eq_mul_inv] at hvalue
  rw [← hvalue, eq_comm, Nat.floor_eq_iff (by positivity), le_div_iff₀ hpos, div_lt_iff₀ hpos]
  constructor <;> linarith [Nat.cast_nonneg (α := ℚ) (Decimal.value w.2.1)]

/-- Whole parts that agree below `2 ^ 53` are cut to the same integer. -/
theorem clampInteger_congr {m n : ℕ} (h : min m (2 ^ 53 - 1) = min n (2 ^ 53 - 1))
    (negative : Bool) : Binary64.clampInteger (if negative then -(m : ℤ) else m) =
      Binary64.clampInteger (if negative then -(n : ℤ) else n) := by
  unfold Binary64.clampInteger
  congr 1
  split_ifs <;> omega

theorem endsInteger_fractionText (fraction : Bytes) : EndsInteger (fractionText fraction) := by
  intro b hb
  rw [fractionText_head? fraction b hb]
  decide

section

variable (hp : p < infinity)
  (h : p = 0 ∨ 10 ^ (-5 : ℤ) ≤ Pattern.value p ∧ Pattern.value p < 10 ^ 16)
include hp h

/-- The text of a number that is written out: the digits of its whole part, and a fraction. -/
theorem exists_whole_of_band : ∃ whole fraction : Bytes, whole.AllDigits ∧ whole ≠ [] ∧
    ofPattern p = whole ++ fractionText fraction ∧
    min (Decimal.value whole) (2 ^ 53 - 1) = min (wholePart p) (2 ^ 53 - 1) := by
  rcases Nat.eq_zero_or_pos p with rfl | h0
  · refine ⟨[48], [], Bytes.allDigits_zeros 1, by decide, rfl, ?_⟩
    rw [wholePart_zero]
    rfl
  · obtain ⟨hlow, hhigh⟩ := h.resolve_left h0.ne'
    have hne := digitsOf_ne_nil h0 hp
    have hdigits := allDigits_digitsOf p
    have hnone := parts_exponent_eq_none (digitsOf p) (neg_five_lt_pointOf h0 hp hlow)
      (pointOf_le_sixteen h0 hp hhigh)
    refine ⟨_, (parts (digitsOf p) (pointOf p)).2.1, (allDigits_parts (pointOf p) hdigits).1,
      parts_ne_nil _ hne, ?_, ?_⟩
    · rw [ofPattern_eq_layout h0, layout_eq_literalText _ hne, literalText, hnone, exponentText,
        List.append_nil]
    · rw [value_whole_parts hdigits hne hnone, value_digitsOf, ← shortestValue,
        min_floor_shortest h0 hp]

/-- The whole part of a number that is written out is read from its text. -/
theorem scanInteger_ofPattern (negative : Bool) : scanInteger (signed negative (ofPattern p)) =
    some (Binary64.clampInteger (if negative then -(wholePart p : ℤ) else wholePart p)) := by
  obtain ⟨whole, fraction, hd, hne, htext, hvalue⟩ := exists_whole_of_band hp h
  have hscan := scanInteger_signed negative Bytes.allBlank_nil hd hne
    (endsInteger_fractionText fraction)
  rw [List.nil_append, signed_append, ← htext] at hscan
  rw [hscan, clampInteger_congr hvalue]

end

end Band

end Numeral

namespace Binary64

/-! ## Reals cut toward zero -/

theorem abs_value (x : Binary64) : |x.value| = Pattern.value x.pattern := by
  have h := Pattern.value_nonneg x.pattern
  unfold value
  split_ifs
  · rw [abs_neg, abs_of_nonneg h]
  · rw [abs_of_nonneg h]

theorem truncated_value (x : Binary64) : truncated x.value =
    if x.negative then -(Pattern.wholePart x.pattern : ℤ) else Pattern.wholePart x.pattern := by
  have hnonneg := Pattern.value_nonneg x.pattern
  have hfloor : ⌊Pattern.value x.pattern⌋ = (Pattern.wholePart x.pattern : ℤ) :=
    Rat.floor_natCast_div_natCast _ _
  unfold truncated value
  split_ifs with hneg hlt hlt
  · rw [Int.ceil_neg, hfloor]
  · -- a negative zero
    have hzero : Pattern.value x.pattern = 0 := by linarith
    rw [hzero, Int.floor_zero] at hfloor
    rw [hzero, neg_zero, Int.floor_zero]
    omega
  · linarith
  · exact hfloor

theorem isNaN_of_isFinite {x : Binary64} (h : x.isFinite = true) : x.isNaN = false :=
  decide_eq_false (of_decide_eq_true h).not_gt

theorem toInteger_of_isFinite {x : Binary64} (h : x.isFinite = true) :
    x.toInteger = clampInteger (truncated x.value) := by
  rw [truncated_value, toInteger, if_neg (Bool.eq_false_iff.mp (isNaN_of_isFinite h))]
  rfl

end Binary64

namespace Numeral

/-- **A real is cut to the same integer directly and through its text**, if it is zero or its
magnitude is at least `10 ^ -5` and below `10 ^ 16`. Both ways it is cut toward zero and then to the
range of integers. -/
theorem scanInteger_ofReal {x : Binary64} (hfinite : x.isFinite = true)
    (hband : x.value = 0 ∨ 10 ^ (-5 : ℤ) ≤ |x.value| ∧ |x.value| < 10 ^ 16) :
    scanInteger (ofReal x) = some x.toInteger ∧
      x.toInteger.toInt = max (-2 ^ 31) (min (truncated x.value) (2 ^ 31 - 1)) := by
  have hp : x.pattern < Pattern.infinity := of_decide_eq_true hfinite
  have hpattern : x.pattern = 0 ∨
      10 ^ (-5 : ℤ) ≤ Pattern.value x.pattern ∧ Pattern.value x.pattern < 10 ^ 16 := by
    rw [← abs_eq_zero, x.abs_value] at hband
    refine hband.imp_left fun h => Pattern.value_strictMono.injective ?_
    rw [h, Pattern.value_zero]
  rw [Binary64.toInteger_of_isFinite hfinite]
  refine ⟨?_, Binary64.toInt_clampInteger _⟩
  rw [ofReal_eq_signed (Binary64.isNaN_of_isFinite hfinite), if_pos hfinite,
    scanInteger_ofPattern hp hpattern, x.truncated_value]

/-- The greatest number below one, with a minus sign: its text has only nines behind the point. -/
theorem scanInteger_ofReal_below_one : (⟨0xbfefffffffffffff⟩ : Binary64).isFinite = true ∧
    (10 ^ (-5 : ℤ) ≤ |(⟨0xbfefffffffffffff⟩ : Binary64).value| ∧
      |(⟨0xbfefffffffffffff⟩ : Binary64).value| < 10 ^ 16) ∧
    scanInteger (ofReal ⟨0xbfefffffffffffff⟩) = some 0 := by
  have hfinite : (⟨0xbfefffffffffffff⟩ : Binary64).isFinite = true := by decide
  have hvalue : |(⟨0xbfefffffffffffff⟩ : Binary64).value| = (2 ^ 53 - 1) * 2 ^ (-53 : ℤ) := by
    rw [Binary64.abs_value, show (⟨0xbfefffffffffffff⟩ : Binary64).pattern =
      1021 * 2 ^ 52 + (2 ^ 53 - 1) by decide, Pattern.value_significand (by norm_num) (by norm_num),
      Pattern.place_eq_zpow]
    norm_num
  have hband : 10 ^ (-5 : ℤ) ≤ |(⟨0xbfefffffffffffff⟩ : Binary64).value| ∧
      |(⟨0xbfefffffffffffff⟩ : Binary64).value| < 10 ^ 16 := by
    rw [hvalue]
    norm_num
  have hinteger : (⟨0xbfefffffffffffff⟩ : Binary64).toInteger = 0 := by decide +kernel
  refine ⟨hfinite, hband, ?_⟩
  rw [(scanInteger_ofReal hfinite (.inr hband)).1, hinteger]

-- next to the band on either side, digits in front of an exponent are read as the whole part
example : (⟨0x4341c37937e08000⟩ : Binary64).toInteger = 2147483647 ∧
    scanInteger (ofReal ⟨0x4341c37937e08000⟩) = some 1 := by decide +kernel

example : (⟨0x3ee4f8b588e368f0⟩ : Binary64).toInteger = 0 ∧
    scanInteger (ofReal ⟨0x3ee4f8b588e368f0⟩) = some 9 := by decide +kernel

end Numeral

end AdaSupport
