import AdaSupport.Numeral.Scanned
import AdaSupport.Proofs.Rounding

/-!
# Rounding and powers of two

A significand that is rounded, then scaled by a power of two in steps and rounded again.

* `Pattern.IsAdjacent x p`: `p` is the pattern of `x`, or one of the two next to `x`.
* `exists_value_eq`, `exists_significand_value`: the values of patterns are the significands of 53
  bits, scaled.
* `passes_add_shift`: rounding commutes with scaling among normal patterns.
* **`isNearest_scaleStepwise`**: scaling in steps rounds once.
* `rounded`, `isNearest_twice`: a significand that is rounded and then scaled.
-/

namespace AdaSupport

namespace Pattern

variable {x : ℚ} {p q : ℕ}

/-! ## Order -/

theorem value_nonneg (p : ℕ) : 0 ≤ value p :=
  value_zero ▸ value_strictMono.monotone (Nat.zero_le p)

theorem Passes.halfway_le (h : Passes x p) : halfway p ≤ x := h.elim le_of_lt fun h => h.1.le

theorem le_halfway_of_not_passes (h : ¬ Passes x p) : x ≤ halfway p :=
  not_lt.mp fun hlt => h (Or.inl hlt)

theorem IsNearest.le_of_le_value (h : IsNearest x p) (hx : x ≤ value q) : p ≤ q := by
  by_contra hlt
  have hpass : Passes x (p - 1) := h.2.1.resolve_left (by omega)
  have hmono : value q ≤ value (p - 1) := value_strictMono.monotone (by omega)
  have hhalf := value_lt_halfway (p - 1)
  have hle := hpass.halfway_le
  linarith

theorem IsNearest.le_of_value_le (h : IsNearest x p) (hq : q ≤ infinity) (hx : value q ≤ x) :
    q ≤ p := by
  by_contra hlt
  have hpass : ¬ Passes x p := h.2.2.resolve_left (by omega)
  have hmono : value (p + 1) ≤ value q := value_strictMono.monotone (by omega)
  have hhalf := halfway_lt_value p
  have hle := le_halfway_of_not_passes hpass
  linarith

/-- A value is rounded to its pattern, or to infinity if that comes first. -/
theorem isNearest_value_min (p : ℕ) : IsNearest (value p) (min infinity p) := by
  rcases le_total p infinity with h | h
  · rw [min_eq_right h]; exact isNearest_value h
  · rw [min_eq_left h]; exact isNearest_infinity (value_strictMono.monotone h)

/-! ## Neighbours -/

/-- `p` is the pattern of `x`, or one of the two that are next to `x`; infinity is next to all that
is above the finite values. -/
def IsAdjacent (x : ℚ) (p : ℕ) : Prop :=
  p ≤ infinity ∧ (p = 0 ∨ value (p - 1) < x) ∧ (p = infinity ∨ x < value (p + 1))

theorem isAdjacent_of_forall (hp : p ≤ infinity) (hl : ∀ q : ℕ, x ≤ value q → p ≤ q)
    (hu : ∀ q : ℕ, q ≤ infinity → value q ≤ x → q ≤ p) : IsAdjacent x p := by
  refine ⟨hp, or_iff_not_imp_left.mpr fun h0 => ?_, or_iff_not_imp_left.mpr fun hinf => ?_⟩
  · by_contra hle
    have := hl (p - 1) (not_lt.mp hle)
    omega
  · by_contra hle
    have := hu (p + 1) (by omega) (not_lt.mp hle)
    omega

theorem IsAdjacent.eq_of_value (h : IsAdjacent x p) (hq : q ≤ infinity) (hx : x = value q) :
    p = q := by
  obtain ⟨hp, hl, hu⟩ := h
  subst hx
  have hle : p ≤ q := by
    rcases hl with rfl | hl
    · exact Nat.zero_le q
    · have := value_strictMono.lt_iff_lt.mp hl
      omega
  have hge : q ≤ p := by
    rcases hu with rfl | hu
    · exact hq
    · have := value_strictMono.lt_iff_lt.mp hu
      omega
  omega

theorem IsNearest.isAdjacent (h : IsNearest x p) : IsAdjacent x p :=
  isAdjacent_of_forall h.1 (fun _ => h.le_of_le_value) fun _ => h.le_of_value_le

/-! ## Values as scaled significands -/

theorem place_eq_zpow (s : ℕ) : place s = 2 ^ ((s : ℤ) - 1074) := by
  rw [place, unitsPerOne, twoTo_eq_pow, zpow_sub₀ two_ne_zero, zpow_natCast, Nat.cast_pow,
    Nat.cast_ofNat, zpow_ofNat]

theorem exists_value_eq {m : ℕ} (hm : m ≤ 2 ^ 53) {t : ℤ} (ht : -1074 ≤ t) :
    ∃ p, value p = m * 2 ^ t := by
  obtain ⟨p, hp⟩ := exists_units_eq (t + 1074).toNat hm
  refine ⟨p, ?_⟩
  have hplace := place_eq_zpow (t + 1074).toNat
  rw [Int.toNat_of_nonneg (by omega), add_sub_cancel_right, place] at hplace
  rw [value, hp, ← hplace]
  push_cast
  ring

theorem exists_significand_value (p : ℕ) : ∃ m : ℕ, m ≤ 2 ^ 53 ∧ ∃ t : ℤ, -1074 ≤ t ∧
    value p = m * 2 ^ t := by
  obtain ⟨s, m, rfl, hm, h⟩ := exists_significand p
  exact ⟨m, hm.le, s - 1074, by omega, by rw [value_significand hm.le h, place_eq_zpow]⟩

theorem value_add_shift (hp : 2 ^ 52 ≤ p) (j : ℕ) : value (p + j * 2 ^ 52) = value p * 2 ^ j := by
  obtain ⟨s, m, rfl, hm, h⟩ := exists_significand p
  rw [show s * 2 ^ 52 + m + j * 2 ^ 52 = (s + j) * 2 ^ 52 + m by ring,
    value_significand hm.le (by omega), value_significand hm.le h, place, place, pow_add]
  ring

theorem value_normal (j : ℕ) : value ((j + 1) * 2 ^ 52) = 2 ^ ((j : ℤ) - 1022) := by
  have h := value_significand (s := j) (m := 2 ^ 52) (by norm_num) (Or.inr le_rfl)
  rw [show (j + 1) * 2 ^ 52 = j * 2 ^ 52 + 2 ^ 52 by ring, h, place_eq_zpow, Nat.cast_pow,
    Nat.cast_ofNat, ← zpow_natCast, ← zpow_add₀ two_ne_zero]
  congr 1
  push_cast
  ring

theorem value_infinity : value infinity = 2 ^ (1024 : ℤ) := value_normal 2046

theorem lt_infinity_of_value_le (h : value p ≤ 2 ^ 64) : p < infinity := by
  refine value_strictMono.lt_iff_lt.mp (h.trans_lt ?_)
  rw [value_infinity, ← zpow_natCast]
  exact zpow_lt_zpow_right₀ one_lt_two (by norm_num)

/-! ## Rounding commutes with scaling -/

theorem halfway_add_shift (hp : 2 ^ 52 ≤ p) (j : ℕ) :
    halfway (p + j * 2 ^ 52) = halfway p * 2 ^ j := by
  rw [halfway, halfway, add_right_comm, value_add_shift hp, value_add_shift (by omega)]
  ring

theorem passes_add_shift (hp : 2 ^ 52 ≤ p) (j : ℕ) :
    Passes (x * 2 ^ j) (p + j * 2 ^ 52) ↔ Passes x p := by
  have hj : (0 : ℚ) < 2 ^ j := by positivity
  have hparity : (p + j * 2 ^ 52) % 2 = p % 2 := by omega
  rw [Passes, Passes, halfway_add_shift hp, mul_lt_mul_iff_left₀ hj, mul_left_inj' hj.ne', hparity]

/-- Scaling up moves the pattern, up to infinity. -/
theorem IsNearest.mul_pow (h : IsNearest x p) (hp : 2 ^ 52 < p) (hinf : p ≠ infinity) (j : ℕ) :
    IsNearest (x * 2 ^ j) (min infinity (p + j * 2 ^ 52)) := by
  have hl : Passes x (p - 1) := h.2.1.resolve_left (by omega)
  have hu : ¬ Passes x p := h.2.2.resolve_left hinf
  refine isNearest_min (Or.inr ?_) ((passes_add_shift (by omega) j).not.mpr hu)
  rw [show p + j * 2 ^ 52 - 1 = p - 1 + j * 2 ^ 52 by omega]
  exact (passes_add_shift (by omega) j).mpr hl

/-- Scaling down moves the pattern as long as the number stays normal. -/
theorem IsNearest.of_mul_pow {j : ℕ} (h : IsNearest (x * 2 ^ j) (p + j * 2 ^ 52))
    (hp : 2 ^ 52 ≤ p) (hinf : p + j * 2 ^ 52 ≠ infinity) (hx : value (2 ^ 52) ≤ x) :
    IsNearest x p := by
  have hle := h.1
  have hu : ¬ Passes (x * 2 ^ j) (p + j * 2 ^ 52) := h.2.2.resolve_left hinf
  refine ⟨by omega, Or.inr ?_, Or.inr ((passes_add_shift hp j).not.mp hu)⟩
  rcases hp.eq_or_lt with rfl | hp
  · -- the pattern below is not normal, but then `x` is above both
    exact Or.inl ((halfway_lt_value _).trans_le hx)
  · have hl : Passes (x * 2 ^ j) (p + j * 2 ^ 52 - 1) := h.2.1.resolve_left (by omega)
    rw [show p + j * 2 ^ 52 - 1 = p - 1 + j * 2 ^ 52 by omega] at hl
    exact (passes_add_shift (by omega) j).mp hl

/-- **A normal number can be rounded before or after it is scaled**, when it stays normal. -/
theorem IsNearest.mul_zpow (h : IsNearest x p) (hp : 2 ^ 52 < p) (hinf : p < infinity) {e : ℤ}
    (hx : value (2 ^ 52) ≤ x * 2 ^ e) {r : ℕ} (hr : IsNearest (value p * 2 ^ e) r) :
    IsNearest (x * 2 ^ e) r := by
  obtain ⟨j, rfl | rfl⟩ := e.eq_nat_or_neg
  · rw [zpow_natCast] at *
    rw [← value_add_shift hp.le] at hr
    rw [hr.unique (isNearest_value_min _)]
    exact h.mul_pow hp hinf.ne j
  · have hj : (0 : ℚ) < 2 ^ j := by positivity
    have hback : x * 2 ^ (-(j : ℤ)) * 2 ^ j = x := by
      rw [zpow_neg, zpow_natCast, inv_mul_cancel_right₀ hj.ne']
    have hshift : value (2 ^ 52 + j * 2 ^ 52) ≤ x := by
      rw [value_add_shift le_rfl, ← hback]
      exact mul_le_mul_of_nonneg_right hx hj.le
    -- all that rounds to `p` is below the next pattern, so the shifted one is no more than `p`
    have hle : 2 ^ 52 + j * 2 ^ 52 ≤ p := by
      have hu := le_halfway_of_not_passes (h.2.2.resolve_left hinf.ne)
      have := value_strictMono.lt_iff_lt.mp ((hshift.trans hu).trans_lt (halfway_lt_value p))
      omega
    obtain ⟨q, rfl⟩ : ∃ q, p = q + j * 2 ^ 52 := ⟨p - j * 2 ^ 52, by omega⟩
    have hvalue : value (q + j * 2 ^ 52) * 2 ^ (-(j : ℤ)) = value q := by
      rw [value_add_shift (by omega), zpow_neg, zpow_natCast, mul_inv_cancel_right₀ hj.ne']
    rw [hvalue] at hr
    rw [hr.unique (isNearest_value (by omega))]
    rw [← hback] at h
    exact h.of_mul_pow (by omega) hinf.ne hx

/-! ## Scaling -/

theorem isNearest_infinity_mul {y : ℚ} (hx : value infinity ≤ x) (hy : 1 ≤ y) :
    IsNearest (x * y) infinity := by
  have hnonneg : 0 ≤ x := (value_nonneg _).trans hx
  exact isNearest_infinity (hx.trans (le_mul_of_one_le_right hnonneg hy))

theorem isNearest_natCast (k : ℕ) : IsNearest k (nearest (k * unitsPerOne) 1) := by
  have h := isNearest_nearest (k * unitsPerOne) Nat.one_pos
  rwa [Nat.cast_one, div_one, Nat.cast_mul, mul_div_cancel_right₀ _ unitsPerOne_cast_pos.ne'] at h

theorem isNearest_scale (hp : p < infinity) (e : ℤ) : IsNearest (value p * 2 ^ e) (scale p e) := by
  rw [scale, if_neg (not_le.mpr hp), value]
  split_ifs with he
  · have h := isNearest_nearest (units p * twoTo e.toNat) Nat.one_pos
    have hpow : ((twoTo e.toNat : ℕ) : ℚ) = 2 ^ e := by
      rw [twoTo_eq_pow, Nat.cast_pow, Nat.cast_ofNat, ← zpow_natCast, Int.toNat_of_nonneg he]
    rwa [Nat.cast_one, div_one, Nat.cast_mul, hpow, mul_div_right_comm] at h
  · have h := isNearest_nearest (units p) (twoTo_pos (-e).toNat)
    have hpow : ((twoTo (-e).toNat : ℕ) : ℚ) = (2 ^ e)⁻¹ := by
      rw [twoTo_eq_pow, Nat.cast_pow, Nat.cast_ofNat, ← zpow_natCast,
        Int.toNat_of_nonneg (by omega), zpow_neg]
    rwa [hpow, div_inv_eq_mul, mul_div_right_comm] at h

theorem scale_infinity (e : ℤ) : scale infinity e = infinity := if_pos le_rfl

theorem scale_zero (e : ℤ) : scale 0 e = 0 := by
  have h := isNearest_scale (p := 0) (by decide) e
  rw [value_zero, zero_mul, ← value_zero] at h
  exact h.unique (isNearest_value (Nat.zero_le _))

/-- Scaling up is exact or gives infinity. -/
theorem value_scale (hp : p ≤ infinity) (j : ℕ) : scale p j ≤ infinity ∧
    (value (scale p j) = value p * 2 ^ j ∨
      scale p j = infinity ∧ value infinity ≤ value p * 2 ^ j) := by
  rcases hp.eq_or_lt with rfl | hp
  · rw [scale_infinity]
    refine ⟨le_rfl, Or.inr ⟨rfl, ?_⟩⟩
    rw [value_infinity]
    exact le_mul_of_one_le_right (by positivity) (one_le_pow₀ one_le_two)
  · have h := isNearest_scale hp j
    rw [zpow_natCast] at h
    obtain ⟨m, hm, t, ht, hvalue⟩ := exists_significand_value p
    obtain ⟨q, hq⟩ := exists_value_eq hm (show -1074 ≤ t + j by omega)
    have hscaled : value p * 2 ^ j = value q := by
      rw [hq, hvalue, mul_assoc, zpow_add₀ two_ne_zero, zpow_natCast]
    rw [hscaled] at h ⊢
    refine ⟨h.1, ?_⟩
    rw [h.unique (isNearest_value_min q)]
    rcases le_total q infinity with hle | hle
    · exact Or.inl (by rw [min_eq_right hle])
    · exact Or.inr ⟨min_eq_left hle, value_strictMono.monotone hle⟩

theorem value_one : value (1023 * 2 ^ 52) = 1 := by
  rw [show 1023 * 2 ^ 52 = (1022 + 1) * 2 ^ 52 by norm_num, value_normal]
  norm_num

theorem isNearest_zero_of_le (h : x ≤ 2 ^ (-1076 : ℤ)) : IsNearest x 0 := by
  refine isNearest_zero (h.trans_lt ?_)
  have hone : value 1 = 2 ^ (-1074 : ℤ) := by
    have := value_significand (s := 0) (m := 1) (by norm_num) (Or.inl rfl)
    rwa [Nat.zero_mul, Nat.zero_add, Nat.cast_one, one_mul, place_eq_zpow] at this
  rw [halfway, value_zero, zero_add, zero_add, hone,
    show (-1074 : ℤ) = -1076 + 2 by norm_num, zpow_add₀ two_ne_zero]
  have hpos : (0 : ℚ) < 2 ^ (-1076 : ℤ) := by positivity
  linarith

end Pattern

namespace Numeral.Hexadecimal

open Pattern

variable {p k : ℕ} {e : ℤ}

/-! ## Scaling in steps -/

theorem clampExponent_of_natAbs_le {bound : ℕ} (h : e.natAbs ≤ bound) :
    clampExponent bound e = e := by
  unfold clampExponent
  omega

/-- Scaling up in steps is exact or gives infinity. -/
theorem isNearest_scaleStepwise_of_nonneg (hp : p ≤ infinity) (he : 0 ≤ e) :
    IsNearest (value p * 2 ^ e) (scaleStepwise p e) := by
  fun_induction scaleStepwise p e with
  | case1 p => rw [zpow_zero, mul_one]; exact isNearest_value hp
  | case2 p e h0 s ih =>
    have hs : 0 ≤ s ∧ s ≤ e := by simp only [s, clampExponent]; omega
    obtain ⟨j, hj⟩ := Int.eq_ofNat_of_zero_le hs.1
    rw [hj] at ih ⊢
    have hsplit : (2 : ℚ) ^ e = 2 ^ j * 2 ^ (e - j) := by
      rw [← zpow_natCast, ← zpow_add₀ two_ne_zero, add_sub_cancel]
    obtain ⟨hle, hvalue | ⟨hinf, hlarge⟩⟩ := value_scale hp j
    · have h := ih hle (by omega)
      rwa [hvalue, mul_assoc, ← hsplit] at h
    · -- infinite from here on, and so is the exact number
      have hone : (1 : ℚ) ≤ 2 ^ (e - j) := one_le_zpow₀ one_le_two (by omega)
      have h := ih hle (by omega)
      rw [hinf] at h ⊢
      rw [h.unique (isNearest_infinity_mul le_rfl hone), hsplit, ← mul_assoc]
      exact isNearest_infinity_mul hlarge hone

theorem scaleStepwise_of_ne (p : ℕ) (he : e ≠ 0) : scaleStepwise p e =
    scaleStepwise (scale p (clampExponent 1000 e)) (e - clampExponent 1000 e) := by
  rw [scaleStepwise, if_neg he]

theorem isNearest_scaleStepwise_of_le (hp : p < infinity) (he : e.natAbs ≤ 1000) :
    IsNearest (value p * 2 ^ e) (scaleStepwise p e) := by
  by_cases h0 : e = 0
  · rw [h0, zpow_zero, mul_one, scaleStepwise, if_pos rfl]
    exact isNearest_value hp.le
  · rw [scaleStepwise_of_ne p h0, clampExponent_of_natAbs_le he, sub_self, scaleStepwise,
      if_pos rfl]
    exact isNearest_scale hp e

theorem scaleStepwise_of_lt (p : ℕ) (he : e < -1000) :
    scaleStepwise p e = scaleStepwise (scale p (-1000)) (e + 1000) := by
  have hs : clampExponent 1000 e = -1000 := by unfold clampExponent; omega
  rw [scaleStepwise_of_ne p (by omega), hs, sub_neg_eq_add]

theorem scaleStepwise_zero (e : ℤ) : scaleStepwise 0 e = 0 := by
  suffices h : ∀ p : ℕ, p = 0 → scaleStepwise p e = 0 from h 0 rfl
  intro p hp
  fun_induction scaleStepwise p e with
  | case1 p => exact hp
  | case2 p e h0 s ih => exact ih (hp ▸ scale_zero s)

/-- **Scaling in steps rounds once.** The first step down from a number that is not below one is
exact, and where a third step would follow there is nothing left. -/
theorem isNearest_scaleStepwise (hone : 1 ≤ value p) (hbound : value p ≤ 2 ^ 64) (e : ℤ) :
    IsNearest (value p * 2 ^ e) (scaleStepwise p e) := by
  have hinf := lt_infinity_of_value_le hbound
  by_cases hpos : 0 ≤ e
  · exact isNearest_scaleStepwise_of_nonneg hinf.le hpos
  by_cases hstep : e.natAbs ≤ 1000
  · exact isNearest_scaleStepwise_of_le hinf hstep
  have hnormal : 1023 * 2 ^ 52 ≤ p := by
    rw [← value_one] at hone
    exact value_strictMono.le_iff_le.mp hone
  obtain ⟨q, rfl⟩ : ∃ q, p = q + 1000 * 2 ^ 52 := ⟨p - 1000 * 2 ^ 52, by omega⟩
  have hvalue : value (q + 1000 * 2 ^ 52) * 2 ^ (-1000 : ℤ) = value q := by
    rw [value_add_shift (by omega), zpow_neg, zpow_ofNat, mul_inv_cancel_right₀ (by positivity)]
  have hfirst : scale (q + 1000 * 2 ^ 52) (-1000) = q := by
    have h := isNearest_scale hinf (-1000)
    rw [hvalue] at h
    exact h.unique (isNearest_value (by omega))
  have hsplit : value (q + 1000 * 2 ^ 52) * 2 ^ e = value q * 2 ^ (e + 1000) := by
    rw [← hvalue, mul_assoc, ← zpow_add₀ two_ne_zero, neg_add_cancel_comm_assoc]
  have hq : q < infinity := by omega
  rw [scaleStepwise_of_lt _ (by omega), hfirst, hsplit]
  by_cases hsecond : (e + 1000).natAbs ≤ 1000
  · exact isNearest_scaleStepwise_of_le hq hsecond
  have hsmall : ∀ d : ℤ, d ≤ -1000 → IsNearest (value q * 2 ^ d) 0 := by
    intro d hd
    refine isNearest_zero_of_le ?_
    have hle : value q ≤ 2 ^ 64 * 2 ^ (-1000 : ℤ) :=
      hvalue ▸ mul_le_mul_of_nonneg_right hbound (by positivity)
    have hpow : (2 : ℚ) ^ d ≤ 2 ^ (-1000 : ℤ) := zpow_le_zpow_right₀ one_le_two hd
    calc value q * 2 ^ d ≤ 2 ^ 64 * 2 ^ (-1000 : ℤ) * 2 ^ (-1000 : ℤ) :=
          mul_le_mul hle hpow (by positivity) (by positivity)
      _ = 2 ^ (64 - 2000 : ℤ) := by
          rw [← zpow_natCast, ← zpow_add₀ two_ne_zero, ← zpow_add₀ two_ne_zero]
          norm_num
      _ ≤ 2 ^ (-1076 : ℤ) := zpow_le_zpow_right₀ one_le_two (by norm_num)
  have hzero : scale q (-1000) = 0 := (isNearest_scale hq (-1000)).unique (hsmall _ le_rfl)
  rw [scaleStepwise_of_lt _ (by omega), hzero, scaleStepwise_zero]
  exact hsmall _ (by omega)

/-! ## A rounded significand -/

/-- A significand rounded to a pattern, then scaled by `2 ^ e`. -/
def rounded (k : ℕ) (e : ℤ) : Pattern :=
  scaleStepwise (nearest (k * unitsPerOne) 1) (clampExponent 2200 e)

/-- Exponents beyond the bound leave nothing or are beyond all finite values. -/
theorem isNearest_of_clamped (hone : 1 ≤ value p) (hbound : value p ≤ 2 ^ 64) {r : ℕ}
    (h : IsNearest (value p * 2 ^ clampExponent 2200 e) r) : IsNearest (value p * 2 ^ e) r := by
  by_cases he : e.natAbs ≤ 2200
  · rwa [clampExponent_of_natAbs_le he] at h
  rcases le_total 0 e with hpos | hneg
  · have hlarge : ∀ d : ℤ, 2200 ≤ d → IsNearest (value p * 2 ^ d) infinity := by
      intro d hd
      rw [mul_comm]
      refine isNearest_infinity_mul ?_ hone
      rw [value_infinity]
      exact zpow_le_zpow_right₀ one_le_two (by omega)
    have hr := h.unique (hlarge _ (by unfold clampExponent; omega))
    exact hr ▸ hlarge e (by omega)
  · have hsmall : ∀ d : ℤ, d ≤ -2200 → IsNearest (value p * 2 ^ d) 0 := by
      intro d hd
      refine isNearest_zero_of_le ?_
      have hpow : (2 : ℚ) ^ d ≤ 2 ^ (-2200 : ℤ) := zpow_le_zpow_right₀ one_le_two hd
      calc value p * 2 ^ d ≤ 2 ^ 64 * 2 ^ (-2200 : ℤ) :=
            mul_le_mul hbound hpow (by positivity) (by positivity)
        _ = 2 ^ (64 - 2200 : ℤ) := by rw [← zpow_natCast, ← zpow_add₀ two_ne_zero]; norm_num
        _ ≤ 2 ^ (-1076 : ℤ) := zpow_le_zpow_right₀ one_le_two (by norm_num)
    have hr := h.unique (hsmall _ (by unfold clampExponent; omega))
    exact hr ▸ hsmall e (by omega)

section Rounded

variable (hk : 0 < k) (hk64 : k < 2 ^ 64)
include hk hk64

theorem value_nearest_bounds : 1 ≤ value (nearest (k * unitsPerOne) 1) ∧
    value (nearest (k * unitsPerOne) 1) ≤ 2 ^ 64 := by
  have h := isNearest_natCast k
  have h64 : value ((1086 + 1) * 2 ^ 52) = 2 ^ 64 := by rw [value_normal]; norm_num
  constructor
  · rw [← value_one]
    refine value_strictMono.monotone (h.le_of_value_le (by decide) ?_)
    rw [value_one]
    exact_mod_cast hk
  · rw [← h64]
    refine value_strictMono.monotone (h.le_of_le_value ?_)
    rw [h64]
    exact_mod_cast hk64.le

/-- The significand is rounded, and then its scaled pattern. -/
theorem isNearest_twice (e : ℤ) :
    IsNearest (value (nearest (k * unitsPerOne) 1) * 2 ^ e) (rounded k e) := by
  obtain ⟨hone, hbound⟩ := value_nearest_bounds hk hk64
  exact isNearest_of_clamped hone hbound (isNearest_scaleStepwise hone hbound _)

end Rounded

end Numeral.Hexadecimal

end AdaSupport
