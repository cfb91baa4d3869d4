import AdaSupport.Decimal.Shortest
import AdaSupport.Proofs.Digits
import AdaSupport.Proofs.Rounding

/-!
# Shortest decimals round to their pattern

Magnitudes stand in the common scale, in units of `10 ^ -400 * 2 ^ -1074`.

* `isNearest_of_roundsTo`: the test on scaled numbers is rounding.
* `step_le_magnitude`, `magnitude_lt_step`: with `n` digits, the magnitude is at least
  `10 ^ (n - 1)` and less than `10 ^ n` steps of the grid.
* `roundsTo_neighbour`: on the grid of seventeen digits a neighbour of the magnitude rounds to the
  pattern.
* **`shortest_cases`**: the shortest decimal is found on the first grid that holds one, which has at
  most seventeen digits.
* `shortest_exponent_nonneg`: the shortest decimal of a whole number is whole.
* **`isNearest_shortest`**: it rounds to the pattern.
-/

namespace AdaSupport.Decimal

open Pattern

namespace Shortest

variable {p : ℕ}

/-! ## The common scale -/

theorem magnitude_strictMono : StrictMono magnitude := fun _ _ h =>
  Nat.mul_lt_mul_of_pos_right (units_strictMono h) (tenTo_pos places)

/-- One in the common scale. -/
def scaledOne : ℚ := tenTo places * unitsPerOne

theorem scaledOne_pos : 0 < scaledOne :=
  mul_pos (Nat.cast_pos.mpr (tenTo_pos places)) unitsPerOne_cast_pos

theorem value_eq_magnitude (p : ℕ) : Pattern.value p = magnitude p / scaledOne := by
  have h₁ : (tenTo places : ℚ) ≠ 0 := by exact_mod_cast (tenTo_pos places).ne'
  rw [Pattern.value, magnitude, scaledOne, Nat.cast_mul, mul_comm (units p : ℚ),
    mul_div_mul_left _ _ h₁]

theorem halfway_eq_magnitude (p : ℕ) :
    halfway p = ((magnitude p + magnitude (p + 1) : ℕ) : ℚ) / 2 / scaledOne := by
  rw [halfway, value_eq_magnitude, value_eq_magnitude, Nat.cast_add]
  ring

theorem grid_eq_pow {c : ℕ} {e : ℤ} (he : -(places : ℤ) ≤ e) :
    ((c * step e : ℕ) : ℚ) / scaledOne = c * 10 ^ e := by
  have h₁ := unitsPerOne_cast_pos.ne'
  have h₂ : (10 : ℚ) ^ places ≠ 0 := by positivity
  have h₃ : (10 : ℚ) ^ (e + places).toNat = 10 ^ e * 10 ^ places := by
    rw [← zpow_natCast, ← zpow_natCast, ← zpow_add₀ (by norm_num), Int.toNat_of_nonneg (by omega)]
  rw [scaledOne, step, tenTo_eq_pow, tenTo_eq_pow]
  push_cast
  rw [h₃]
  field_simp

/-- The ends of the interval belong to an even pattern only. -/
theorem roundsTo_cases {x : ℕ} (h : roundsTo p x = true) :
    (p % 2 = 0 ∧ magnitude (p - 1) + magnitude p ≤ 2 * x ∧
      2 * x ≤ magnitude p + magnitude (p + 1)) ∨
    (p % 2 = 1 ∧ magnitude (p - 1) + magnitude p < 2 * x ∧
      2 * x < magnitude p + magnitude (p + 1)) := by
  by_cases he : p % 2 = 0
  · simp only [roundsTo, if_pos he, Bool.and_eq_true, decide_eq_true_eq] at h
    exact .inl ⟨he, h⟩
  · simp only [roundsTo, if_neg he, Bool.and_eq_true, decide_eq_true_eq] at h
    exact .inr ⟨by omega, h⟩

/-- **A scaled number that passes the test rounds to the pattern.** -/
theorem isNearest_of_roundsTo (h0 : 0 < p) (hp : p < infinity) {x : ℕ} (h : roundsTo p x = true) :
    IsNearest ((x : ℚ) / scaledOne) p := by
  have hone := scaledOne_pos
  have hx : (x : ℚ) / scaledOne = ((2 * x : ℕ) : ℚ) / 2 / scaledOne := by push_cast; ring
  have hlow : halfway (p - 1) = ((magnitude (p - 1) + magnitude p : ℕ) : ℚ) / 2 / scaledOne := by
    rw [halfway_eq_magnitude, Nat.sub_add_cancel h0]
  -- both comparisons are between whole numbers over the same denominator
  have hle : ∀ {a b : ℕ}, a ≤ b → (a : ℚ) / 2 / scaledOne ≤ (b : ℚ) / 2 / scaledOne := by
    intro a b hab
    have : (a : ℚ) ≤ b := by exact_mod_cast hab
    gcongr
  have hlt : ∀ {a b : ℕ}, a < b → (a : ℚ) / 2 / scaledOne < (b : ℚ) / 2 / scaledOne := by
    intro a b hab
    have : (a : ℚ) < b := by exact_mod_cast hab
    gcongr
  refine ⟨hp.le, Or.inr ?_, Or.inr ?_⟩
  · rw [Passes, hlow, hx]
    rcases roundsTo_cases h with ⟨he, hl, -⟩ | ⟨-, hl, -⟩
    · rcases hl.eq_or_lt with e | hl
      · exact Or.inr ⟨by rw [e], by omega⟩
      · exact Or.inl (hlt hl)
    · exact Or.inl (hlt hl)
  · rw [Passes, halfway_eq_magnitude, hx]
    rcases roundsTo_cases h with ⟨he, -, hu⟩ | ⟨-, -, hu⟩
    · rintro (hl | ⟨-, ho⟩)
      · exact absurd (hle hu) (not_le.mpr hl)
      · omega
    · rintro (hl | ⟨hl, -⟩)
      · exact absurd (hlt hu) (not_lt.mpr hl.le)
      · exact absurd (hlt hu) (not_lt.mpr hl.le)

theorem roundsTo_of_between {x : ℕ} (hl : magnitude (p - 1) + magnitude p < 2 * x)
    (hu : 2 * x < magnitude p + magnitude (p + 1)) : roundsTo p x = true := by
  simp only [roundsTo]
  split_ifs <;> simp only [Bool.and_eq_true, decide_eq_true_eq] <;> omega

/-! ## The place of the point -/

theorem unitsPerOne_le_tenTo : unitsPerOne ≤ tenTo 324 := by decide +kernel

theorem units_infinity_mul_lt : units infinity * tenTo 324 < tenTo 633 * unitsPerOne := by
  decide +kernel

/-- The number of digits in front of the place `10 ^ -324`. -/
def whole (p : ℕ) : ℕ := width (units p * tenTo 324 / unitsPerOne)

theorem point_eq (p : ℕ) : point p = whole p - 324 := rfl

theorem whole_pos (p : ℕ) : 0 < whole p := width_pos _

theorem whole_le (hp : p < infinity) : whole p ≤ 633 := by
  refine width_le_of_lt_tenTo (by decide) ?_
  rw [Nat.div_lt_iff_lt_mul unitsPerOne_pos]
  exact (Nat.mul_le_mul_right _ (units_strictMono hp).le).trans_lt units_infinity_mul_lt

theorem tenTo_whole_le (h0 : 0 < p) :
    tenTo (whole p - 1) * unitsPerOne ≤ units p * tenTo 324 := by
  have hu : 0 < units p := lt_of_le_of_lt (Nat.zero_le _) (units_strictMono h0)
  have hle : unitsPerOne ≤ units p * tenTo 324 :=
    unitsPerOne_le_tenTo.trans (Nat.le_mul_of_pos_left _ hu)
  exact (Nat.le_div_iff_mul_le unitsPerOne_pos).mp
    (tenTo_width_le (Nat.div_pos hle unitsPerOne_pos))

theorem lt_tenTo_whole (p : ℕ) : units p * tenTo 324 < tenTo (whole p) * unitsPerOne :=
  (Nat.div_lt_iff_lt_mul unitsPerOne_pos).mp (lt_tenTo_width _)

theorem magnitude_eq (p : ℕ) : magnitude p = units p * tenTo 324 * tenTo 76 := by
  rw [magnitude, places, mul_assoc, ← tenTo_add]

section Grid

variable {n : ℕ} (hn : n ≤ 17)
include hn

theorem step_point : step (point p - n) = unitsPerOne * tenTo (whole p + 76 - n) := by
  have hw := whole_pos p
  have : (point p - n + places).toNat = whole p + 76 - n := by
    rw [point_eq, places]; omega
  rw [step, this]

theorem step_le_magnitude (h0 : 0 < p) (hpos : 0 < n) :
    step (point p - n) * tenTo (n - 1) ≤ magnitude p := by
  have hw := whole_pos p
  calc step (point p - n) * tenTo (n - 1)
      = tenTo (whole p - 1) * unitsPerOne * tenTo 76 := by
        rw [step_point hn, mul_assoc, ← tenTo_add,
          show whole p + 76 - n + (n - 1) = whole p - 1 + 76 by omega, tenTo_add]
        ring
    _ ≤ units p * tenTo 324 * tenTo 76 := Nat.mul_le_mul_right _ (tenTo_whole_le h0)
    _ = magnitude p := (magnitude_eq p).symm

theorem magnitude_lt_step : magnitude p < step (point p - n) * tenTo n := by
  have hw := whole_pos p
  calc magnitude p = units p * tenTo 324 * tenTo 76 := magnitude_eq p
    _ < tenTo (whole p) * unitsPerOne * tenTo 76 :=
        Nat.mul_lt_mul_of_pos_right (lt_tenTo_whole p) (tenTo_pos 76)
    _ = step (point p - n) * tenTo n := by
        rw [step_point hn, mul_assoc unitsPerOne, ← tenTo_add,
          show whole p + 76 - n + n = whole p + 76 by omega, tenTo_add]
        ring

end Grid

/-! ## Seventeen digits -/

theorem multiple_above (M : ℕ) {g : ℕ} (hg : 0 < g) :
    M < (M / g + 1) * g ∧ (M / g + 1) * g ≤ M + g := by
  have hdiv := Nat.div_add_mod M g
  have hmod := Nat.mod_lt M hg
  have : (M / g + 1) * g = g * (M / g) + g := by ring
  omega

/-- One of the two multiples of `g` around `M` is less than half of `G` away. -/
theorem multiple_near (M : ℕ) {g G : ℕ} (hg : 0 < g) (hG : g < G) :
    (2 * M < 2 * (M / g * g) + G ∧ 2 * (M / g * g) < 2 * M + G) ∨
      (2 * M < 2 * ((M / g + 1) * g) + G ∧ 2 * ((M / g + 1) * g) < 2 * M + G) := by
  have hdiv := Nat.div_add_mod M g
  have hmod := Nat.mod_lt M hg
  have hb : M / g * g = g * (M / g) := Nat.mul_comm _ _
  have ha : (M / g + 1) * g = g * (M / g) + g := by ring
  omega

/-- The spacing of patterns above `p`. -/
theorem exists_spacing (h0 : 0 < p) : ∃ G, magnitude (p + 1) = magnitude p + G ∧
    (magnitude p < 2 ^ 53 * G ∧ magnitude (p - 1) + G = magnitude p ∨
      magnitude p = 2 ^ 52 * G ∧ magnitude (p - 1) < magnitude p) := by
  obtain ⟨s, m, rfl, hm, h⟩ := exists_significand p
  have hmag : ∀ k : ℕ, k ≤ 2 ^ 53 → (s = 0 ∨ 2 ^ 52 ≤ k) →
      magnitude (s * 2 ^ 52 + k) = k * (2 ^ s * tenTo places) := fun k hk h => by
    rw [magnitude, units_significand hk h, mul_assoc]
  have hpos : 0 < 2 ^ s * tenTo places := Nat.mul_pos (Nat.two_pow_pos s) (tenTo_pos places)
  refine ⟨2 ^ s * tenTo places, ?_, ?_⟩
  · rw [add_assoc, hmag m hm.le h, hmag (m + 1) (by omega) (by omega), Nat.succ_mul]
  by_cases hb : s = 0 ∨ 2 ^ 52 < m
  · left
    refine ⟨?_, ?_⟩
    · rw [hmag m hm.le h]
      exact Nat.mul_lt_mul_of_pos_right hm hpos
    · rw [show s * 2 ^ 52 + m - 1 = s * 2 ^ 52 + (m - 1) by omega, hmag m hm.le h,
        hmag (m - 1) (by omega) (by omega), ← Nat.succ_mul, Nat.succ_eq_add_one,
        Nat.sub_add_cancel (by omega)]
  · right
    obtain rfl : m = 2 ^ 52 := by omega
    exact ⟨hmag _ hm.le h, magnitude_strictMono (Nat.sub_lt h0 Nat.one_pos)⟩

/-- On a grid of seventeen digits, a neighbour of the magnitude rounds to the pattern. -/
theorem roundsTo_neighbour (h0 : 0 < p) {g : ℕ} (hg : 0 < g) (hle : g * 10 ^ 16 ≤ magnitude p) :
    roundsTo p (magnitude p / g * g) = true ∨ roundsTo p ((magnitude p / g + 1) * g) = true := by
  obtain ⟨G, hsucc, ⟨hlt, hpred⟩ | ⟨heq, hpred⟩⟩ := exists_spacing h0
  · -- the patterns are equally far on both sides, and the grid is finer than that
    refine (multiple_near (magnitude p) hg (show g < G by omega)).imp ?_ ?_ <;>
      exact fun ⟨h₁, h₂⟩ => roundsTo_of_between (by omega) (by omega)
  · -- the pattern below is half as far; the neighbour above is near enough
    obtain ⟨h₁, h₂⟩ := multiple_above (magnitude p) hg
    exact Or.inr (roundsTo_of_between (by omega) (by omega))

theorem roundHalfEven_eq_or (n d : ℕ) :
    roundHalfEven n d = n / d ∨ roundHalfEven n d = n / d + 1 := by
  simp only [roundHalfEven]
  split_ifs <;> omega

/-- What is chosen on a grid is a neighbour of the magnitude that rounds to the pattern. -/
theorem onGrid?_eq_some {e : ℤ} {c : ℕ} (h : onGrid? p e = some c) :
    roundsTo p (c * step e) = true ∧ magnitude p / step e ≤ c ∧ c ≤ magnitude p / step e + 1 := by
  simp only [onGrid?] at h
  cases hb : roundsTo p (magnitude p / step e * step e) <;>
    cases ha : roundsTo p ((magnitude p / step e + 1) * step e) <;>
    simp only [hb, ha, reduceCtorEq, Option.some.injEq] at h
  · subst h; exact ⟨ha, Nat.le_succ _, le_rfl⟩
  · subst h; exact ⟨hb, le_rfl, Nat.le_succ _⟩
  · subst h
    rcases roundHalfEven_eq_or (magnitude p) (step e) with e' | e' <;> rw [e']
    · exact ⟨hb, le_rfl, Nat.le_succ _⟩
    · exact ⟨ha, Nat.le_succ _, le_rfl⟩

theorem onGrid?_ne_none {e : ℤ} (h : roundsTo p (magnitude p / step e * step e) = true ∨
    roundsTo p ((magnitude p / step e + 1) * step e) = true) : onGrid? p e ≠ none := by
  simp only [onGrid?]
  rcases h with h | h <;> rw [h] <;> split <;> simp_all

theorem step_pos (e : ℤ) : 0 < step e := Nat.mul_pos unitsPerOne_pos (tenTo_pos _)

end Shortest

open Shortest

variable {p : ℕ}

/-- **The shortest decimal is found on the first grid that holds one**, which has at most seventeen
digits. -/
theorem shortest_cases (h0 : 0 < p) : ∃ n c : ℕ, 1 ≤ n ∧ n ≤ 17 ∧
    shortest p = ⟨c, point p - n⟩ ∧ onGrid? p (point p - n) = some c ∧
    ∀ m : ℕ, 1 ≤ m → m < n → onGrid? p (point p - m) = none := by
  set f := fun (n : ℕ) => (onGrid? p (point p - n)).map fun c => (⟨c, point p - n⟩ : Scaled) with hf
  have hsome : ∃ d, (List.range' 1 17).findSome? f = some d := by
    rw [← Option.ne_none_iff_exists', ne_eq, List.findSome?_eq_none_iff]
    intro hnone
    have h17 := hnone 17 (by simp)
    rw [hf, Option.map_eq_none_iff] at h17
    exact onGrid?_ne_none (roundsTo_neighbour h0 (step_pos _)
      (step_le_magnitude (n := 17) le_rfl h0 (by decide))) h17
  obtain ⟨d, hd⟩ := hsome
  obtain ⟨before, n, after, hrange, hfn, hbefore⟩ := List.findSome?_eq_some_iff.mp hd
  obtain ⟨c, hc, rfl⟩ := Option.map_eq_some_iff.mp hfn
  -- the grids before the one that was found have fewer digits
  obtain ⟨k, hk, hb, hrest⟩ := List.range'_eq_append_iff.mp hrange
  obtain ⟨hn, hpos, -⟩ := List.range'_eq_cons_iff.mp hrest.symm
  refine ⟨n, c, by omega, by omega, ?_, hc, fun m hm hlt => ?_⟩
  · change ((List.range' 1 17).findSome? f).getD _ = _
    rw [hd, Option.getD_some]
  · have hmem : m ∈ before := by
      rw [hb]
      exact List.mem_range'_1.mpr (by omega)
    exact Option.map_eq_none_iff.mp (hbefore m hmem)

theorem point_bounds (hp : p < infinity) : -323 ≤ point p ∧ point p ≤ 309 := by
  have h₁ := whole_pos p
  have h₂ := whole_le hp
  rw [point_eq]
  omega

theorem value_lt_tenTo_point (p : ℕ) : Pattern.value p < 10 ^ point p := by
  have hw := whole_pos p
  have hlt := magnitude_lt_step (p := p) (n := 0) (by decide)
  have hgrid := grid_eq_pow (c := 1) (e := point p) (by rw [point_eq, places]; omega)
  rw [Nat.cast_zero, sub_zero, tenTo_eq_pow, pow_zero, mul_one] at hlt
  rw [one_mul, Nat.cast_one, one_mul] at hgrid
  rw [value_eq_magnitude, ← hgrid]
  exact div_lt_div_of_pos_right (Nat.cast_lt.mpr hlt) scaledOne_pos

theorem tenTo_point_le_value (h0 : 0 < p) : (10 : ℚ) ^ (point p - 1) ≤ Pattern.value p := by
  have hw := whole_pos p
  have hle := step_le_magnitude (n := 1) (by decide) h0 Nat.one_pos
  have hgrid := grid_eq_pow (c := 1) (e := point p - 1) (by rw [point_eq, places]; omega)
  rw [Nat.cast_one, tenTo_eq_pow, pow_zero, mul_one] at hle
  rw [one_mul, Nat.cast_one, one_mul] at hgrid
  rw [value_eq_magnitude, ← hgrid]
  exact div_le_div_of_nonneg_right (Nat.cast_le.mpr hle) scaledOne_pos.le

/-- The shortest decimal does not fall below the power of ten below its pattern. -/
theorem tenTo_point_le_shortest (h0 : 0 < p) :
    (10 : ℚ) ^ (point p - 1) ≤ (shortest p).digits * 10 ^ (shortest p).exponent := by
  obtain ⟨n, c, hn1, hn, hs, hc, -⟩ := shortest_cases h0
  have hle := step_le_magnitude hn h0 hn1
  rw [mul_comm, ← Nat.le_div_iff_mul_le (step_pos _)] at hle
  have hc : ((tenTo (n - 1) : ℕ) : ℚ) ≤ c :=
    Nat.cast_le.mpr (hle.trans (onGrid?_eq_some hc).2.1)
  have hexp : point p - 1 = (n - 1 : ℕ) + (point p - n) := by omega
  calc (10 : ℚ) ^ (point p - 1) = (tenTo (n - 1) : ℕ) * 10 ^ (point p - n) := by
        rw [hexp, zpow_add₀ (by norm_num), zpow_natCast, tenTo_eq_pow, Nat.cast_pow, Nat.cast_ofNat]
    _ ≤ c * 10 ^ (point p - n) := mul_le_mul_of_nonneg_right hc (by positivity)
    _ = (shortest p).digits * 10 ^ (shortest p).exponent := by rw [hs]

/-- The shortest decimal of a whole number of at most seventeen digits is whole. -/
theorem shortest_exponent_nonneg (h0 : 0 < p) {k : ℕ} (hk : units p = k * unitsPerOne)
    (hpos : 0 < point p) (hle : point p ≤ 17) : 0 ≤ (shortest p).exponent := by
  obtain ⟨n, c, -, -, hs, -, hfirst⟩ := shortest_cases h0
  rw [hs]
  by_contra hneg
  have hgrid : point p - (point p).toNat = 0 := by omega
  have hnone := hfirst (point p).toNat (by omega) (by dsimp only at hneg; omega)
  rw [hgrid] at hnone
  -- the number itself lies on the grid of whole numbers
  have hmul : magnitude p = k * step 0 := by
    rw [magnitude, hk, step, mul_assoc, zero_add, Int.toNat_natCast]
  have hdiv : magnitude p / step 0 * step 0 = magnitude p := by
    rw [hmul, Nat.mul_div_cancel _ (step_pos 0)]
  refine onGrid?_ne_none (.inl ?_) hnone
  rw [hdiv]
  have hbelow := magnitude_strictMono (Nat.sub_lt h0 Nat.one_pos)
  have habove := magnitude_strictMono (Nat.lt_add_one p)
  exact roundsTo_of_between (by omega) (by omega)

/-- **The shortest decimal rounds to its pattern.** -/
theorem isNearest_shortest (h0 : 0 < p) (hp : p < infinity) :
    IsNearest ((shortest p).digits * 10 ^ (shortest p).exponent) p := by
  obtain ⟨n, c, hn1, hn, hs, hc, -⟩ := shortest_cases h0
  have hb := point_bounds hp
  have h := isNearest_of_roundsTo h0 hp (onGrid?_eq_some hc).1
  rw [grid_eq_pow (by rw [places]; omega)] at h
  rw [hs]
  exact h

theorem shortest_digits_pos (h0 : 0 < p) (hp : p < infinity) : 0 < (shortest p).digits := by
  rcases Nat.eq_zero_or_pos (shortest p).digits with h | h
  · have hnear := isNearest_shortest h0 hp
    rw [h, Nat.cast_zero, zero_mul] at hnear
    have hzero : IsNearest 0 0 := isNearest_zero (value_zero ▸ value_lt_halfway 0)
    exact absurd (hnear.unique hzero) h0.ne'
  · exact h

theorem shortest_digits_le (h0 : 0 < p) : (shortest p).digits ≤ 10 ^ 17 := by
  obtain ⟨n, c, -, hn, hs, hc, -⟩ := shortest_cases h0
  have hlt := magnitude_lt_step hn (p := p)
  rw [mul_comm, ← Nat.div_lt_iff_lt_mul (step_pos _)] at hlt
  have hle := (onGrid?_eq_some hc).2.2
  calc (shortest p).digits = c := by rw [hs]
    _ ≤ tenTo n := by omega
    _ ≤ 10 ^ 17 := Nat.pow_le_pow_right (by decide) hn

theorem shortest_exponent_bounds (h0 : 0 < p) (hp : p < infinity) :
    -340 ≤ (shortest p).exponent ∧ (shortest p).exponent ≤ 308 := by
  obtain ⟨n, c, hn1, hn, hs, -⟩ := shortest_cases h0
  have hb := point_bounds hp
  rw [hs]
  dsimp only
  omega

end AdaSupport.Decimal
