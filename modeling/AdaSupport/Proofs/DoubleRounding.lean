import AdaSupport.Proofs.Scaling

/-!
# Rounding twice

A significand is rounded to a pattern before it is scaled, and what is scaled is rounded again. The
first rounding keeps as many bits as a pattern has, however small the number is. It can only do harm
where the second one has a tie, and the first has made the number that tie.

* `IsSignificand`: the number has no more bits than a pattern.
* `IsShortened x y`: `y` is `x` rounded to so many bits; `IsShortened.unique`: there is one such.
* `TiesApart`: the number becomes a tie that goes to the other side.
* **`IsShortened.isNearest_iff`**: rounding twice is rounding once, unless that is so.
* **`isAdjacent_rounded`**, **`isNearest_rounded_iff`**: what both roundings do to a significand.
-/

namespace AdaSupport

namespace Pattern

variable {x y z : ℚ} {p q : ℕ}

/-! ## Significands -/

/-- The number has no more bits than a pattern. -/
def IsSignificand (x : ℚ) : Prop := ∃ m : ℕ, m ≤ 2 ^ 53 ∧ ∃ j : ℤ, x = m * 2 ^ j

theorem isSignificand_value (p : ℕ) : IsSignificand (value p) := by
  obtain ⟨m, hm, t, -, hp⟩ := exists_significand_value p
  exact ⟨m, hm, t, hp⟩

theorem isSignificand_zpow (e : ℤ) : IsSignificand (2 ^ e) :=
  ⟨1, by norm_num, e, by rw [Nat.cast_one, one_mul]⟩

theorem IsSignificand.mul_zpow (h : IsSignificand x) (e : ℤ) : IsSignificand (x * 2 ^ e) := by
  obtain ⟨m, hm, j, rfl⟩ := h
  exact ⟨m, hm, j + e, by rw [mul_assoc, ← zpow_add₀ two_ne_zero]⟩

/-- Ties between numbers that are not normal have no more bits than a pattern. -/
theorem isSignificand_halfway (hp : p < 2 ^ 52) : IsSignificand (halfway p) := by
  have hvalue : ∀ q ≤ 2 ^ 52, value q = q * 2 ^ (-1074 : ℤ) := fun q hq => by
    have h := value_significand (s := 0) (m := q) (by omega) (Or.inl rfl)
    rwa [Nat.zero_mul, Nat.zero_add, place_eq_zpow] at h
  refine ⟨2 * p + 1, by omega, -1075, ?_⟩
  rw [halfway, hvalue p hp.le, hvalue (p + 1) hp, show (-1074 : ℤ) = -1075 + 1 by norm_num,
    zpow_add₀ two_ne_zero, zpow_one]
  generalize (2 : ℚ) ^ (-1075 : ℤ) = u
  push_cast
  ring

/-- What has no more bits than a pattern is the value of one, unless it is far below one. -/
theorem IsSignificand.exists_value (h : IsSignificand x) : (∃ q, value q = x) ∨ x < 1 := by
  obtain ⟨m, hm, t, rfl⟩ := h
  by_cases ht : -1074 ≤ t
  · exact Or.inl (exists_value_eq hm ht)
  · right
    have hm' : (m : ℚ) ≤ 2 ^ 53 := by exact_mod_cast hm
    have hlt : (2 : ℚ) ^ t ≤ 2 ^ (-1074 : ℤ) := zpow_le_zpow_right₀ one_le_two (by omega)
    calc (m : ℚ) * 2 ^ t ≤ 2 ^ 53 * 2 ^ (-1074 : ℤ) :=
          mul_le_mul hm' hlt (by positivity) (by positivity)
      _ < 1 := by
          rw [← zpow_natCast, ← zpow_add₀ two_ne_zero]
          exact zpow_lt_one_of_neg₀ one_lt_two (by norm_num)

section Between

variable (h : IsNearest x p) (hone : 1 ≤ x) (hz : IsSignificand z)
include h hone hz

/-- No significand lies between a number and what it is rounded to. -/
theorem IsNearest.value_le_of_le (hx : x ≤ z) : value p ≤ z := by
  rcases hz.exists_value with ⟨q, rfl⟩ | hlt
  · exact value_strictMono.monotone (h.le_of_le_value hx)
  · exact absurd (hone.trans hx) (not_le.mpr hlt)

theorem IsNearest.le_value_of_le (hp : p < infinity) (hx : z ≤ x) : z ≤ value p := by
  rcases hz.exists_value with ⟨q, rfl⟩ | hlt
  · have hfinite : value q < value (p + 1) :=
      (hx.trans (le_halfway_of_not_passes (h.2.2.resolve_left hp.ne))).trans_lt (halfway_lt_value p)
    have hq : q < p + 1 := value_strictMono.lt_iff_lt.mp hfinite
    exact value_strictMono.monotone (h.le_of_value_le (by omega) hx)
  · refine hlt.le.trans ?_
    rw [← value_one]
    refine value_strictMono.monotone (h.le_of_value_le (by decide) ?_)
    rwa [value_one]

end Between

/-! ## Shortening -/

/-- `y` is `x` rounded to as many bits as a pattern has, however small or large it is. -/
def IsShortened (x y : ℚ) : Prop :=
  ∃ (j : ℤ) (p : ℕ), 1 ≤ x * 2 ^ j ∧ p < infinity ∧ IsNearest (x * 2 ^ j) p ∧ y * 2 ^ j = value p

theorem mul_zpow_mul_zpow_neg (x : ℚ) (j : ℤ) : x * 2 ^ j * 2 ^ (-j) = x := by
  rw [mul_assoc, ← zpow_add₀ two_ne_zero, add_neg_cancel, zpow_zero, mul_one]

theorem lt_of_one_le (h : IsNearest x p) (hone : 1 ≤ x) : 2 ^ 52 < p := by
  rw [← value_one] at hone
  exact lt_of_lt_of_le (by norm_num) (h.le_of_value_le (by decide) hone)

namespace IsShortened

variable (h : IsShortened x y)
include h

theorem le_of_le (hz : IsSignificand z) (hx : x ≤ z) : y ≤ z := by
  obtain ⟨j, p, hone, -, hnear, hy⟩ := h
  have hj : (0 : ℚ) < 2 ^ j := by positivity
  have hle := hnear.value_le_of_le hone (hz.mul_zpow j) (mul_le_mul_of_nonneg_right hx hj.le)
  rw [← hy] at hle
  exact le_of_mul_le_mul_right hle hj

theorem ge_of_ge (hz : IsSignificand z) (hx : z ≤ x) : z ≤ y := by
  obtain ⟨j, p, hone, hp, hnear, hy⟩ := h
  have hj : (0 : ℚ) < 2 ^ j := by positivity
  have hle := hnear.le_value_of_le hone (hz.mul_zpow j) hp (mul_le_mul_of_nonneg_right hx hj.le)
  rw [← hy] at hle
  exact le_of_mul_le_mul_right hle hj

/-- **A number is shortened to one number only.** -/
theorem unique {y' : ℚ} (h' : IsShortened x y') : y = y' := by
  obtain ⟨j, p, hone, hp, hnear, hy⟩ := h
  obtain ⟨j', p', hone', hp', hnear', hy'⟩ := h'
  have hj' : (0 : ℚ) < 2 ^ j' := by positivity
  have hscale : ∀ a : ℚ, a * 2 ^ j * 2 ^ (j' - j) = a * 2 ^ j' := fun a => by
    rw [mul_assoc, ← zpow_add₀ two_ne_zero, add_sub_cancel]
  refine mul_right_cancel₀ hj'.ne' ?_
  rw [hy', ← hscale y, hy]
  rcases ((isSignificand_value p).mul_zpow (j' - j)).exists_value with ⟨q, hq⟩ | hlt
  · -- rounded at the other scale, the number gives the same significand
    have hnormal : value (2 ^ 52) ≤ x * 2 ^ j * 2 ^ (j' - j) := by
      rw [hscale]
      exact (value_strictMono.monotone (by norm_num)).trans (value_one.trans_le hone')
    have hmin := hnear.mul_zpow (lt_of_one_le hnear hone) hp hnormal (hq ▸ isNearest_value_min q)
    rw [hscale] at hmin
    have hq' : p' = q := by
      have := hnear'.unique hmin
      omega
    rw [hq', hq]
  · -- it does not fall below one, since one is a significand
    have hback : (2 : ℚ) ^ (j - j') ≤ x * 2 ^ j := by
      have hpow : (0 : ℚ) < 2 ^ (j' - j) := by positivity
      refine le_of_mul_le_mul_right ?_ hpow
      rwa [hscale, ← zpow_add₀ two_ne_zero, sub_add_sub_cancel, sub_self, zpow_zero]
    have hle := hnear.le_value_of_le hone (isSignificand_zpow _) hp hback
    have hge : (1 : ℚ) ≤ value p * 2 ^ (j' - j) := by
      refine le_trans ?_ (mul_le_mul_of_nonneg_right hle (by positivity))
      rw [← zpow_add₀ two_ne_zero, sub_add_sub_cancel, sub_self, zpow_zero]
    exact absurd hge (not_le.mpr hlt)

/-- A normal number can be shortened first. -/
theorem isNearest_of_normal (hx : value (2 ^ 52) ≤ x) {r : ℕ} (hr : IsNearest y r) :
    IsNearest x r := by
  obtain ⟨j, p, hone, hp, hnear, hy⟩ := h
  rw [← mul_zpow_mul_zpow_neg x j] at hx ⊢
  rw [← mul_zpow_mul_zpow_neg y j, hy] at hr
  exact hnear.mul_zpow (lt_of_one_le hnear hone) hp hx hr

end IsShortened

/-! ## Ties -/

/-- Shortened, the number is a tie between two patterns, and the tie goes to the one on the other
side of the number. -/
def TiesApart (x : ℚ) : Prop :=
  ∃ (y : ℚ) (p : ℕ), IsShortened x y ∧ p < infinity ∧ y = halfway p ∧
    (x < y ∧ p % 2 = 1 ∨ y < x ∧ p % 2 = 0)

theorem not_tiesApart_of_isSignificand (hx : IsSignificand x) : ¬ TiesApart x := by
  rintro ⟨y, p, h, -, -, ⟨hlt, -⟩ | ⟨hlt, -⟩⟩
  · exact absurd (h.le_of_le hx le_rfl) (not_le.mpr hlt)
  · exact absurd (h.ge_of_ge hx le_rfl) (not_le.mpr hlt)

theorem Passes.of_le (h : Passes x p) (hq : q ≤ p) : Passes x q := by
  rcases hq.eq_or_lt with rfl | hq
  · exact h
  · exact h.of_lt hq

/-- The patterns that a number passes are those below the one that it rounds to. -/
theorem IsNearest.passes_iff_lt (h : IsNearest x q) (hp : p < infinity) : Passes x p ↔ p < q := by
  constructor
  · intro hpass
    by_contra hle
    have hstay : ¬ Passes x q := h.2.2.resolve_left (by omega)
    exact hstay (hpass.of_le (by omega))
  · intro hlt
    have hup : Passes x (q - 1) := h.2.1.resolve_left (by omega)
    exact hup.of_le (by omega)

section Twice

variable {r : ℕ} (h : IsShortened x y) (hr : IsNearest y r)
include h hr

theorem not_tiesApart_of_isNearest (hx : IsNearest x r) : ¬ TiesApart x := by
  rintro ⟨y', p, h', hp, htie, hside⟩
  obtain rfl := h.unique h'
  -- rounded to the same pattern, the number and the tie pass the same patterns
  have hpasses : Passes x p ↔ Passes y p := (hx.passes_iff_lt hp).trans (hr.passes_iff_lt hp).symm
  rcases hside with ⟨hlt, hodd⟩ | ⟨hlt, heven⟩
  · rcases hpasses.mpr (Or.inr ⟨htie.symm, hodd⟩) with hgt | ⟨heq, -⟩ <;> linarith
  · rcases hpasses.mp (Or.inl (htie ▸ hlt)) with hgt | ⟨-, hodd⟩
    · linarith
    · omega

theorem isNearest_of_not_tiesApart (hties : ¬ TiesApart x) : IsNearest x r := by
  by_cases hnormal : value (2 ^ 52) ≤ x
  · exact h.isNearest_of_normal hnormal hr
  rw [not_le] at hnormal
  have hr52 : r ≤ 2 ^ 52 := hr.le_of_le_value (h.le_of_le (isSignificand_value _) hnormal.le)
  have hinf : (2 ^ 52 : ℕ) < infinity := by decide
  refine ⟨hr.1, or_iff_not_imp_left.mpr fun hpos => ?_, Or.inr fun hpass => ?_⟩
  · have hup : Passes y (r - 1) := hr.2.1.resolve_left hpos
    by_contra hnot
    -- only a tie can pass `r - 1` while the number does not
    have hle := le_halfway_of_not_passes hnot
    rcases hup with hgt | ⟨htie, hodd⟩
    · exact absurd (h.le_of_le (isSignificand_halfway (by omega)) hle) (not_le.mpr hgt)
    · have hne : x ≠ halfway (r - 1) := fun heq => hnot (Or.inr ⟨heq.symm, hodd⟩)
      exact hties ⟨y, r - 1, h, by omega, htie.symm,
        Or.inl ⟨htie ▸ lt_of_le_of_ne hle hne, hodd⟩⟩
  · have hlow : r < 2 ^ 52 := by
      refine lt_of_le_of_ne hr52 fun heq => ?_
      rw [heq] at hpass
      exact absurd (hpass.halfway_le.trans_lt hnormal) (not_lt.mpr (value_lt_halfway _).le)
    have hstay : ¬ Passes y r := hr.2.2.resolve_left (by omega)
    have htie : y = halfway r :=
      le_antisymm (le_halfway_of_not_passes hstay)
        (h.ge_of_ge (isSignificand_halfway hlow) hpass.halfway_le)
    have heven : r % 2 = 0 := by
      by_contra hodd
      exact hstay (Or.inr ⟨htie.symm, by omega⟩)
    rcases hpass with hgt | ⟨-, hodd⟩
    · exact hties ⟨y, r, h, by omega, htie, Or.inr ⟨htie ▸ hgt, heven⟩⟩
    · omega

/-- **Rounding twice is rounding once**, unless the number is made a tie that goes to the other
side. -/
theorem IsShortened.isNearest_iff : IsNearest x r ↔ ¬ TiesApart x :=
  ⟨not_tiesApart_of_isNearest h hr, isNearest_of_not_tiesApart h hr⟩

end Twice

theorem not_tiesApart_of_normal (hx : 2 ^ (-1022 : ℤ) ≤ x) : ¬ TiesApart x := by
  rw [show (-1022 : ℤ) = (0 : ℕ) - 1022 by norm_num, ← value_normal, zero_add, one_mul] at hx
  intro hties
  obtain ⟨y, p, h, -, rfl, -⟩ := id hties
  have hr := isNearest_nearest (units p + units (p + 1)) Nat.two_pos
  rw [Nat.cast_add, Nat.cast_ofNat, div_right_comm, add_div, ← value, ← value, ← halfway] at hr
  exact not_tiesApart_of_isNearest h hr (h.isNearest_of_normal hx hr) hties

end Pattern

namespace Numeral.Hexadecimal

open Pattern

variable {k : ℕ} {e : ℤ}

/-! ## A rounded significand -/

/-- A value below the next significand of 61 bits is not above this one. -/
theorem value_le_of_lt_succ (hk : 2 ^ 60 ≤ k) {q : ℕ} (h : value q < (k + 1) * 2 ^ e) :
    value q ≤ k * 2 ^ e := by
  obtain ⟨m, hm, t, -, hq⟩ := exists_significand_value q
  have hpow : (0 : ℚ) < 2 ^ e := by positivity
  have hsplit : (m : ℚ) * 2 ^ t = m * 2 ^ (t - e) * 2 ^ e := by
    rw [mul_assoc, ← zpow_add₀ two_ne_zero, sub_add_cancel]
  rw [hq, hsplit] at h ⊢
  have hlt := lt_of_mul_lt_mul_right h hpow.le
  refine mul_le_mul_of_nonneg_right ?_ hpow.le
  by_cases ht : 0 ≤ t - e
  · -- the significand is a multiple of the place, so it is a whole number
    obtain ⟨j, hj⟩ := Int.eq_ofNat_of_zero_le ht
    rw [hj, zpow_natCast] at hlt ⊢
    have hnat : m * 2 ^ j < k + 1 := by exact_mod_cast hlt
    exact_mod_cast Nat.lt_succ_iff.mp hnat
  · have hle : (2 : ℚ) ^ (t - e) ≤ 1 := zpow_le_one_of_nonpos₀ one_le_two (by omega)
    have hmk : m ≤ k := hm.trans ((by norm_num : 2 ^ 53 ≤ 2 ^ 60).trans hk)
    calc (m : ℚ) * 2 ^ (t - e) ≤ m := mul_le_of_le_one_right (Nat.cast_nonneg m) hle
      _ ≤ k := Nat.cast_le.mpr hmk

section Rounded

variable (hk : 0 < k) (hk64 : k < 2 ^ 64)
include hk hk64

/-- The first rounding shortens the number. -/
theorem isShortened_nearest (e : ℤ) :
    IsShortened (k * 2 ^ e) (value (nearest (k * unitsPerOne) 1) * 2 ^ e) := by
  have hone : (1 : ℚ) ≤ k := by exact_mod_cast hk
  have hfinite := lt_infinity_of_value_le (value_nearest_bounds hk hk64).2
  refine ⟨-e, _, ?_, hfinite, ?_, mul_zpow_mul_zpow_neg _ e⟩
  · rwa [mul_zpow_mul_zpow_neg]
  · rw [mul_zpow_mul_zpow_neg]
    exact isNearest_natCast k

/-- **Both roundings together give a neighbour**, also of a number that was cut to the
significand. -/
theorem isAdjacent_rounded {x : ℚ} (hl : k * 2 ^ e ≤ x)
    (hu : x = k * 2 ^ e ∨ 2 ^ 60 ≤ k ∧ x < (k + 1) * 2 ^ e) : IsAdjacent x (rounded k e) := by
  have hfirst := isShortened_nearest hk hk64 e
  have h := isNearest_twice hk hk64 e
  refine isAdjacent_of_forall h.1 (fun q hq => ?_) fun q hq hx => ?_
  · exact h.le_of_le_value (hfirst.le_of_le (isSignificand_value q) (hl.trans hq))
  · refine h.le_of_value_le hq (hfirst.ge_of_ge (isSignificand_value q) ?_)
    rcases hu with rfl | ⟨hk60, hu⟩
    · exact hx
    · exact value_le_of_lt_succ hk60 (hx.trans_lt hu)

/-- **Both roundings together round to nearest**, unless the first makes a tie of the number that
goes to the other side. -/
theorem isNearest_rounded_iff :
    IsNearest (k * 2 ^ e) (rounded k e) ↔ ¬ TiesApart (k * 2 ^ e) :=
  (isShortened_nearest hk hk64 e).isNearest_iff (isNearest_twice hk hk64 e)

end Rounded

end Numeral.Hexadecimal

end AdaSupport
