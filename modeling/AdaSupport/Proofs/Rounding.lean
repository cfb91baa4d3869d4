import AdaSupport.Binary64
import Mathlib.Algebra.Order.Field.Power
import Mathlib.Data.Rat.Cast.Order
import Mathlib.Tactic.FieldSimp
import Mathlib.Tactic.Linarith
import Mathlib.Tactic.Positivity
import Mathlib.Tactic.Ring

/-!
# Nearest patterns

The value of a pattern is a rational number. A rational number rounds to the pattern whose value is
nearest to it, and half way between two neighbours to the even one.

* `Pattern.value`, `Pattern.halfway`: the exact value, and the point half way to the next pattern.
* `Pattern.Passes x p`: `x` rounds to a pattern above `p`.
* `Pattern.IsNearest x p`: `x` rounds to `p`, to infinity from half a step above the largest finite
  value on.
* `IsNearest.unique`: a number rounds to one pattern only.
* **`isNearest_nearest`**: `nearest n d` is the pattern that `n / d` units round to.
* `nearest_of_units`, `exists_units_eq`: no rounding takes place at a pattern's own value, and every
  significand that fits has a pattern.
* `Binary64.value`: the exact value of a finite number.
-/

namespace AdaSupport

theorem twoTo_eq_pow (n : ℕ) : twoTo n = 2 ^ n := rfl

theorem twoTo_pos (n : ℕ) : 0 < twoTo n := Nat.two_pow_pos n

/-! ## Rounded quotients -/

section Quotient

variable (n : ℕ) {d : ℕ}

theorem roundHalfEven_cases (hd : 0 < d) :
    (2 * roundHalfEven n d * d < 2 * n + d ∧ 2 * n < 2 * roundHalfEven n d * d + d) ∨
      (roundHalfEven n d % 2 = 0 ∧
        2 * roundHalfEven n d * d ≤ 2 * n + d ∧ 2 * n ≤ 2 * roundHalfEven n d * d + d) := by
  have hn := Nat.div_add_mod n d
  have hr := Nat.mod_lt n hd
  have hs : ∀ q, 2 * (q + 1) * d = 2 * (d * q) + 2 * d := fun q => by ring
  have hz : ∀ q, 2 * q * d = 2 * (d * q) := fun q => by ring
  simp only [roundHalfEven]
  split_ifs with h₁ h₂
  · left; rw [hz]; omega
  · left; rw [hs]; omega
  · right
    rcases Nat.mod_two_eq_zero_or_one (n / d) with h | h <;> rw [h]
    · rw [Nat.add_zero, hz]; omega
    · rw [hs]; omega

/-- A rounded quotient is off by at most a half, and by less when it is odd. -/
theorem roundHalfEven_bounds (hd : 0 < d) :
    (roundHalfEven n d : ℚ) - 1 / 2 ≤ n / d ∧ (n : ℚ) / d ≤ roundHalfEven n d + 1 / 2 ∧
      (roundHalfEven n d % 2 = 1 →
        (roundHalfEven n d : ℚ) - 1 / 2 < n / d ∧ (n : ℚ) / d < roundHalfEven n d + 1 / 2) := by
  have hd' : (0 : ℚ) < d := by exact_mod_cast hd
  rcases roundHalfEven_cases n hd with ⟨h₁, h₂⟩ | ⟨he, h₁, h₂⟩
  · have h₁' : 2 * (roundHalfEven n d : ℚ) * d < 2 * n + d := by exact_mod_cast h₁
    have h₂' : 2 * (n : ℚ) < 2 * roundHalfEven n d * d + d := by exact_mod_cast h₂
    have hl : (roundHalfEven n d : ℚ) - 1 / 2 < n / d := by
      rw [lt_div_iff₀ hd']; linarith
    have hu : (n : ℚ) / d < roundHalfEven n d + 1 / 2 := by
      rw [div_lt_iff₀ hd']; linarith
    exact ⟨hl.le, hu.le, fun _ => ⟨hl, hu⟩⟩
  · have h₁' : 2 * (roundHalfEven n d : ℚ) * d ≤ 2 * n + d := by exact_mod_cast h₁
    have h₂' : 2 * (n : ℚ) ≤ 2 * roundHalfEven n d * d + d := by exact_mod_cast h₂
    refine ⟨?_, ?_, fun ho => by omega⟩
    · rw [le_div_iff₀ hd']; linarith
    · rw [div_le_iff₀ hd']; linarith

end Quotient

namespace Pattern

/-! ## Exact values -/

theorem unitsPerOne_pos : 0 < unitsPerOne := twoTo_pos _

theorem unitsPerOne_cast_pos : (0 : ℚ) < unitsPerOne := Nat.cast_pos.mpr unitsPerOne_pos

/-- Every pattern is a significand of at most 53 bits and a shift. -/
theorem exists_significand (p : ℕ) : ∃ s m : ℕ, p = s * 2 ^ 52 + m ∧ m < 2 ^ 53 ∧
    (s = 0 ∨ 2 ^ 52 ≤ m) := by
  have hr := Nat.mod_lt p (show 0 < 2 ^ 52 by norm_num)
  by_cases he : p / 2 ^ 52 = 0
  · exact ⟨0, p, by omega, by omega, Or.inl rfl⟩
  · exact ⟨p / 2 ^ 52 - 1, 2 ^ 52 + p % 2 ^ 52, by omega, by omega, Or.inr (by omega)⟩

/-- The magnitude in terms of significand and shift; `2 ^ 53` may stand for `2 ^ 52` one shift
higher. -/
theorem units_significand {s m : ℕ} (hm : m ≤ 2 ^ 53) (h : s = 0 ∨ 2 ^ 52 ≤ m) :
    units (s * 2 ^ 52 + m) = m * 2 ^ s := by
  by_cases h₁ : m < 2 ^ 52
  · have he : exponent (s * 2 ^ 52 + m) = 0 := show (s * 2 ^ 52 + m) / 2 ^ 52 = 0 by omega
    have hf : fraction (s * 2 ^ 52 + m) = m := show (s * 2 ^ 52 + m) % 2 ^ 52 = m by omega
    rw [units, if_pos he, hf, show s = 0 by omega, pow_zero, mul_one]
  by_cases h₂ : m < 2 ^ 53
  · have he : exponent (s * 2 ^ 52 + m) = s + 1 := show (s * 2 ^ 52 + m) / 2 ^ 52 = s + 1 by omega
    have hf : twoTo 52 + fraction (s * 2 ^ 52 + m) = m :=
      show 2 ^ 52 + (s * 2 ^ 52 + m) % 2 ^ 52 = m by omega
    rw [units, he, if_neg (Nat.succ_ne_zero s), hf, Nat.add_sub_cancel, twoTo_eq_pow]
  · have he : exponent (s * 2 ^ 52 + m) = s + 2 := show (s * 2 ^ 52 + m) / 2 ^ 52 = s + 2 by omega
    have hf : fraction (s * 2 ^ 52 + m) = 0 := show (s * 2 ^ 52 + m) % 2 ^ 52 = 0 by omega
    rw [units, he, if_neg (Nat.succ_ne_zero _), hf, show m = 2 * 2 ^ 52 by omega,
      show s + 2 - 1 = s + 1 by omega, twoTo_eq_pow, twoTo_eq_pow, pow_succ]
    ring

theorem units_lt_units_succ (p : ℕ) : units p < units (p + 1) := by
  obtain ⟨s, m, rfl, hm, h⟩ := exists_significand p
  rw [add_assoc, units_significand hm.le h, units_significand (by omega) (by omega)]
  exact Nat.mul_lt_mul_of_pos_right (Nat.lt_succ_self m) (Nat.two_pow_pos s)

theorem units_strictMono : StrictMono units := strictMono_nat_of_lt_succ units_lt_units_succ

/-- The value of a finite pattern; `2 ^ 1024` at infinity. -/
def value (p : ℕ) : ℚ := units p / unitsPerOne

theorem value_strictMono : StrictMono value := by
  intro p q h
  have hunits : (units p : ℚ) < units q := Nat.cast_lt.mpr (units_strictMono h)
  exact div_lt_div_of_pos_right hunits unitsPerOne_cast_pos

theorem value_zero : value 0 = 0 := by
  have h : units 0 = 0 := rfl
  rw [value, h, Nat.cast_zero, zero_div]

/-- The point half way to the next pattern. -/
def halfway (p : ℕ) : ℚ := (value p + value (p + 1)) / 2

theorem value_lt_halfway (p : ℕ) : value p < halfway p := by
  have := value_strictMono (Nat.lt_succ_self p)
  rw [halfway]; linarith

theorem halfway_lt_value (p : ℕ) : halfway p < value (p + 1) := by
  have := value_strictMono (Nat.lt_succ_self p)
  rw [halfway]; linarith

theorem halfway_strictMono : StrictMono halfway :=
  strictMono_nat_of_lt_succ fun p => (halfway_lt_value p).trans (value_lt_halfway (p + 1))

/-! ## Rounding -/

/-- `x` rounds to a pattern above `p`. The point half way above an odd pattern does so. -/
def Passes (x : ℚ) (p : ℕ) : Prop := halfway p < x ∨ halfway p = x ∧ p % 2 = 1

/-- `x` rounds to `p`. -/
def IsNearest (x : ℚ) (p : ℕ) : Prop :=
  p ≤ infinity ∧ (p = 0 ∨ Passes x (p - 1)) ∧ (p = infinity ∨ ¬ Passes x p)

theorem Passes.of_lt {x : ℚ} {p q : ℕ} (h : Passes x p) (hq : q < p) : Passes x q := by
  have hm := halfway_strictMono hq
  rcases h with h | ⟨h, -⟩
  · exact Or.inl (hm.trans h)
  · exact Or.inl (h ▸ hm)

theorem IsNearest.not_lt {x : ℚ} {p q : ℕ} (hp : IsNearest x p) (hq : IsNearest x q) :
    ¬ p < q := by
  intro h
  have hpass : Passes x (q - 1) := hq.2.1.resolve_left (by omega)
  have hnot : ¬ Passes x p := hp.2.2.resolve_left fun e => by have := hq.1; omega
  by_cases e : q - 1 = p
  · exact hnot (e ▸ hpass)
  · exact hnot (hpass.of_lt (by omega))

/-- **A number rounds to one pattern only.** -/
theorem IsNearest.unique {x : ℚ} {p q : ℕ} (hp : IsNearest x p) (hq : IsNearest x q) :
    p = q := by
  have := hp.not_lt hq
  have := hq.not_lt hp
  omega

theorem isNearest_zero {x : ℚ} (h : x < halfway 0) : IsNearest x 0 := by
  refine ⟨Nat.zero_le _, Or.inl rfl, Or.inr ?_⟩
  rintro (h' | ⟨-, h'⟩)
  · linarith
  · exact absurd h' (by decide)

theorem isNearest_infinity {x : ℚ} (h : value infinity ≤ x) : IsNearest x infinity := by
  refine ⟨le_rfl, Or.inr (Or.inl (lt_of_lt_of_le ?_ h)), Or.inl rfl⟩
  exact halfway_lt_value (infinity - 1)

/-- Rounding with no bound on the exponent, then cutting at infinity. -/
theorem isNearest_min {x : ℚ} {p : ℕ} (hl : p = 0 ∨ Passes x (p - 1)) (hu : ¬ Passes x p) :
    IsNearest x (min infinity p) := by
  rcases le_total p infinity with h | h
  · rw [min_eq_right h]
    exact ⟨h, hl, Or.inr hu⟩
  · rw [min_eq_left h]
    have hpos : (0 : ℕ) < infinity := by decide
    have hpass : Passes x (p - 1) := hl.resolve_left (by omega)
    refine ⟨le_rfl, Or.inr ?_, Or.inl rfl⟩
    rcases h.eq_or_lt with rfl | h
    · exact hpass
    · exact hpass.of_lt (by omega)

section Nearest

variable {s m : ℕ} {y : ℚ}

/-- One place of a significand that is shifted by `s`. -/
def place (s : ℕ) : ℚ := 2 ^ s / unitsPerOne

theorem place_pos (s : ℕ) : 0 < place s := div_pos (pow_pos two_pos s) unitsPerOne_cast_pos

theorem value_significand (hm : m ≤ 2 ^ 53) (h : s = 0 ∨ 2 ^ 52 ≤ m) :
    value (s * 2 ^ 52 + m) = m * place s := by
  rw [value, units_significand hm h, place, ← mul_div_assoc]
  push_cast
  rfl

theorem passes_significand_pred (hm : m ≤ 2 ^ 53) (h : s = 0 ∨ 2 ^ 52 ≤ m)
    (hy : s = 0 ∨ 2 ^ 52 ≤ y) (hl : (m : ℚ) - 1 / 2 ≤ y) (ho : m % 2 = 1 → (m : ℚ) - 1 / 2 < y) :
    s * 2 ^ 52 + m = 0 ∨ Passes (y * place s) (s * 2 ^ 52 + m - 1) := by
  by_cases h0 : s * 2 ^ 52 + m = 0
  · exact Or.inl h0
  right
  have hpos := place_pos s
  by_cases hb : s = 0 ∨ 2 ^ 52 < m
  · -- the pattern below has the same shift, so the point between is half a place below
    have hmid : halfway (s * 2 ^ 52 + m - 1) = (m - 1 / 2) * place s := by
      rw [halfway, Nat.sub_add_cancel (Nat.pos_of_ne_zero h0), value_significand hm h,
        show s * 2 ^ 52 + m - 1 = s * 2 ^ 52 + (m - 1) by omega,
        value_significand (by omega) (by omega), Nat.cast_sub (by omega)]
      push_cast
      ring
    rcases hl.eq_or_lt with e | hl
    · refine Or.inr ⟨by rw [hmid, e], ?_⟩
      have : m % 2 ≠ 1 := fun h1 => absurd (ho h1) (by linarith)
      omega
    · exact Or.inl (by rw [hmid]; exact mul_lt_mul_of_pos_right hl hpos)
  · -- the smallest significand of this shift: everything rounded here is not below its value
    left
    obtain rfl : m = 2 ^ 52 := by omega
    have hy' : (2 : ℚ) ^ 52 ≤ y := hy.resolve_left (by omega)
    calc halfway (s * 2 ^ 52 + 2 ^ 52 - 1) < value (s * 2 ^ 52 + 2 ^ 52 - 1 + 1) :=
          halfway_lt_value _
      _ = 2 ^ 52 * place s := by
          rw [Nat.sub_add_cancel (by omega), value_significand hm h]; push_cast; rfl
      _ ≤ y * place s := mul_le_mul_of_nonneg_right hy' hpos.le

theorem not_passes_significand (hm : m ≤ 2 ^ 53) (h : s = 0 ∨ 2 ^ 52 ≤ m) (hy : y < 2 ^ 53)
    (hu : y ≤ m + 1 / 2) (ho : m % 2 = 1 → y < m + 1 / 2) :
    ¬ Passes (y * place s) (s * 2 ^ 52 + m) := by
  have hpos := place_pos s
  by_cases hb : m < 2 ^ 53
  · have hmid : halfway (s * 2 ^ 52 + m) = (m + 1 / 2) * place s := by
      rw [halfway, add_assoc, value_significand hm h, value_significand (by omega) (by omega)]
      push_cast
      ring
    rintro (hp | ⟨hp, hodd⟩)
    · rw [hmid] at hp
      exact absurd (lt_of_mul_lt_mul_right hp hpos.le) (not_lt.mpr hu)
    · rw [hmid] at hp
      have := mul_right_cancel₀ hpos.ne' hp
      exact absurd (ho (by omega)) (by linarith)
  · obtain rfl : m = 2 ^ 53 := by omega
    have hlt : y * place s < halfway (s * 2 ^ 52 + 2 ^ 53) :=
      calc y * place s < 2 ^ 53 * place s := mul_lt_mul_of_pos_right hy hpos
        _ = value (s * 2 ^ 52 + 2 ^ 53) := by rw [value_significand hm h]; push_cast; rfl
        _ < halfway (s * 2 ^ 52 + 2 ^ 53) := value_lt_halfway _
    rintro (hp | ⟨hp, -⟩) <;> linarith

/-- The shift of `nearest` leaves a quotient of 53 bits, of fewer only if the shift is zero. -/
theorem shifted_bounds (n : ℕ) {d s : ℕ} (hd : 0 < d) (hs : s = (n / d).log2 - 52) :
    (n : ℚ) / (d * twoTo s : ℕ) < 2 ^ 53 ∧ (s = 0 ∨ (2 : ℚ) ^ 52 ≤ n / (d * twoTo s : ℕ)) := by
  have hd' : 0 < d * twoTo s := Nat.mul_pos hd (twoTo_pos s)
  have hq : (0 : ℚ) < (d * twoTo s : ℕ) := by exact_mod_cast hd'
  constructor
  · have hlt : n / d < 2 ^ (53 + s) :=
      lt_of_lt_of_le Nat.lt_log2_self (Nat.pow_le_pow_right (by decide) (by omega))
    have hn : n < 2 ^ 53 * (d * twoTo s) := by
      have := (Nat.div_lt_iff_lt_mul hd).mp hlt
      rwa [pow_add, mul_assoc, mul_comm (2 ^ s) d, ← twoTo_eq_pow s] at this
    rw [div_lt_iff₀ hq]
    exact_mod_cast hn
  · by_cases h0 : s = 0
    · exact Or.inl h0
    right
    have hne : n / d ≠ 0 := fun e => h0 (by rw [hs, e]; rfl)
    have hle : 2 ^ (52 + s) ≤ n / d := by
      rw [show 52 + s = (n / d).log2 by omega]
      exact Nat.log2_self_le hne
    have hn : 2 ^ 52 * (d * twoTo s) ≤ n := by
      have := (Nat.le_div_iff_mul_le hd).mp hle
      rwa [pow_add, mul_assoc, mul_comm (2 ^ s) d, ← twoTo_eq_pow s] at this
    rw [le_div_iff₀ hq]
    exact_mod_cast hn

/-- **The pattern that `n / d` units round to.** -/
theorem isNearest_nearest (n : ℕ) {d : ℕ} (hd : 0 < d) :
    IsNearest (n / d / unitsPerOne) (nearest n d) := by
  obtain ⟨s, hs⟩ : ∃ s, s = (n / d).log2 - 52 := ⟨_, rfl⟩
  have hd' : 0 < d * twoTo s := Nat.mul_pos hd (twoTo_pos s)
  obtain ⟨hlt, hge⟩ := shifted_bounds n hd hs
  obtain ⟨hl, hu, ho⟩ := roundHalfEven_bounds n hd'
  have hx : (n : ℚ) / d / unitsPerOne = n / (d * twoTo s : ℕ) * place s := by
    have h2 : (2 : ℚ) ^ s ≠ 0 := by positivity
    rw [place, twoTo_eq_pow, Nat.cast_mul, Nat.cast_pow, Nat.cast_ofNat]
    generalize (unitsPerOne : ℚ) = u
    field_simp
  have hm : roundHalfEven n (d * twoTo s) ≤ 2 ^ 53 := by
    have : (roundHalfEven n (d * twoTo s) : ℚ) < 2 ^ 53 + 1 := by linarith
    have : roundHalfEven n (d * twoTo s) < 2 ^ 53 + 1 := by exact_mod_cast this
    omega
  have h : s = 0 ∨ 2 ^ 52 ≤ roundHalfEven n (d * twoTo s) := by
    refine hge.imp_right fun hge => ?_
    have : (2 : ℚ) ^ 52 < roundHalfEven n (d * twoTo s) + 1 := by linarith
    have : 2 ^ 52 < roundHalfEven n (d * twoTo s) + 1 := by exact_mod_cast this
    omega
  have hnear : nearest n d = min infinity (s * 2 ^ 52 + roundHalfEven n (d * twoTo s)) := by
    rw [hs]; rfl
  rw [hnear, hx]
  exact isNearest_min (passes_significand_pred hm h hge hl fun e => (ho e).1)
    (not_passes_significand hm h hlt hu fun e => (ho e).2)

end Nearest

/-! ## Numbers that need no rounding -/

theorem isNearest_value {p : ℕ} (hp : p ≤ infinity) : IsNearest (value p) p := by
  have hup := value_lt_halfway p
  refine ⟨hp, ?_, Or.inr ?_⟩
  · by_cases h0 : p = 0
    · exact Or.inl h0
    · have hdown := halfway_lt_value (p - 1)
      rw [Nat.sub_add_cancel (Nat.pos_of_ne_zero h0)] at hdown
      exact Or.inr (Or.inl hdown)
  · rintro (h | ⟨h, -⟩) <;> linarith

/-- **A pattern's own magnitude is rounded to that pattern.** -/
theorem nearest_of_units {n d p : ℕ} (hd : 0 < d) (hp : p ≤ infinity) (h : units p * d = n) :
    nearest n d = p := by
  have hd' : (d : ℚ) ≠ 0 := Nat.cast_ne_zero.mpr hd.ne'
  have hx : (n : ℚ) / d / unitsPerOne = value p := by
    rw [← h, Nat.cast_mul, mul_div_cancel_right₀ _ hd', value]
  exact (isNearest_nearest n hd).unique (hx ▸ isNearest_value hp)

theorem exists_units_eq (s : ℕ) {m : ℕ} (hm : m ≤ 2 ^ 53) : ∃ p, units p = m * 2 ^ s := by
  induction s generalizing m with
  | zero => exact ⟨0 * 2 ^ 52 + m, units_significand hm (Or.inl rfl)⟩
  | succ s ih =>
    by_cases h : 2 ^ 52 ≤ m
    · exact ⟨(s + 1) * 2 ^ 52 + m, units_significand hm (Or.inr h)⟩
    · -- one place of the shift goes into the significand
      obtain ⟨p, hp⟩ := @ih (2 * m) (by omega)
      exact ⟨p, by rw [hp, pow_succ]; ring⟩

end Pattern

namespace Binary64

/-- The exact value of a finite number. -/
def value (x : Binary64) : ℚ :=
  if x.negative then -Pattern.value x.pattern else Pattern.value x.pattern

theorem pattern_ofPattern (negative : Bool) {p : ℕ} (hp : p < 2 ^ 63) :
    (ofPattern negative p).pattern = p ∧ (ofPattern negative p).negative = negative := by
  have h63 : twoTo 63 = 2 ^ 63 := rfl
  simp only [pattern, Binary64.negative, ofPattern, h63, UInt64.toNat_ofNat']
  cases negative with
  | false =>
    have hbits : p % 2 ^ 64 = p := Nat.mod_eq_of_lt (by omega)
    rw [if_neg Bool.false_ne_true, hbits]
    exact ⟨Nat.mod_eq_of_lt hp, decide_eq_false (by omega)⟩
  | true =>
    have hbits : (2 ^ 63 + p) % 2 ^ 64 = 2 ^ 63 + p := Nat.mod_eq_of_lt (by omega)
    rw [if_pos rfl, hbits]
    exact ⟨(Nat.add_mod_left _ _).trans (Nat.mod_eq_of_lt hp), decide_eq_true (by omega)⟩

end Binary64

end AdaSupport
