import AdaSupport.Numeral.Printed
import Mathlib.Algebra.Order.Ring.Nat
import Mathlib.Data.List.Induction
import Mathlib.Data.List.TakeDrop
import Mathlib.Data.List.TakeWhile
import Mathlib.Tactic.Ring

/-!
# Digit runs

* `value_append`: the value of two runs one after the other.
* `tenTo_width_le`, `lt_tenTo_width`: a number of `w` digits is at least `10 ^ (w - 1)` and below
  `10 ^ w`.
* `leadingValue_eq_value`, `min_le_leadingValue`: a bounded reading is exact up to ten times its
  bound, and reaches the bound for all larger numbers.
* `splitDigits_append`: a run is split off whole in front of anything that is not a digit.
* `significant_append`: the digits of a number are its significant ones and zeros behind them.
-/

namespace AdaSupport

theorem tenTo_eq_pow (n : ℕ) : tenTo n = 10 ^ n := rfl

theorem tenTo_pos (n : ℕ) : 0 < tenTo n := Nat.pow_pos (by decide)

theorem tenTo_add (m n : ℕ) : tenTo (m + n) = tenTo m * tenTo n := pow_add 10 m n

theorem tenTo_succ (n : ℕ) : tenTo (n + 1) = tenTo n * 10 := pow_succ 10 n

namespace Decimal

/-! ## Values of runs -/

theorem value_append (ds es : Bytes) : value (ds ++ es) = value ds * 10 ^ es.length + value es := by
  induction es using List.reverseRecOn with
  | nil => simp [value]
  | append_singleton es b ih =>
    rw [← List.append_assoc, value_append_singleton, value_append_singleton, ih,
      List.length_append, List.length_singleton, pow_succ]
    ring

theorem value_zeros (n : ℕ) : value (List.replicate n 48) = 0 := by
  induction n with
  | zero => rfl
  | succ n ih => rw [List.replicate_succ', value_append_singleton, ih]; rfl

theorem leadingValue_append_singleton (bound : ℕ) (ds : Bytes) (b : UInt8) :
    leadingValue bound (ds ++ [b]) = if leadingValue bound ds < bound then
      10 * leadingValue bound ds + Bytes.digitValue b else leadingValue bound ds := by
  rw [leadingValue, List.foldl_append]
  rfl

theorem leadingValue_eq_value {bound : ℕ} {ds : Bytes} (h : value ds < 10 * bound) :
    leadingValue bound ds = value ds := by
  induction ds using List.reverseRecOn with
  | nil => rfl
  | append_singleton ds b ih =>
    rw [value_append_singleton] at h ⊢
    rw [leadingValue_append_singleton, ih (by omega), if_pos (by omega)]

theorem min_le_leadingValue (bound : ℕ) (ds : Bytes) :
    min bound (value ds) ≤ leadingValue bound ds ∧ leadingValue bound ds ≤ value ds := by
  induction ds using List.reverseRecOn with
  | nil => exact ⟨Nat.min_le_right _ _, le_rfl⟩
  | append_singleton ds b ih =>
    rw [leadingValue_append_singleton, value_append_singleton]
    split_ifs <;> omega

theorem cappedValue_eq_min (cap : ℕ) (ds : Bytes) : cappedValue cap ds = min (value ds) cap := by
  induction ds using List.reverseRecOn with
  | nil => exact (Nat.zero_min cap).symm
  | append_singleton ds b ih =>
    rw [value_append_singleton, cappedValue, List.foldl_append, ← cappedValue, ih]
    change min (10 * min (value ds) cap + Bytes.digitValue b) cap = _
    omega

/-! ## Widths -/

theorem width_pos (n : ℕ) : 0 < width n := by
  rw [width]; split_ifs <;> omega

theorem lt_tenTo_width (n : ℕ) : n < tenTo (width n) := by
  fun_induction width n with
  | case1 n h => exact h
  | case2 n h ih => rw [tenTo_succ]; omega

theorem tenTo_width_le {n : ℕ} (h : 0 < n) : tenTo (width n - 1) ≤ n := by
  fun_induction width n with
  | case1 n _ => exact h
  | case2 n h10 ih =>
    have hw := width_pos (n / 10)
    rw [show width (n / 10) + 1 - 1 = width (n / 10) - 1 + 1 by omega, tenTo_succ]
    have := ih (by omega)
    omega

theorem width_le_of_lt_tenTo {n k : ℕ} (hk : 0 < k) (h : n < tenTo k) : width n ≤ k := by
  rcases Nat.eq_zero_or_pos n with rfl | hn
  · rw [width]; exact hk
  · have hlt := lt_of_le_of_lt (tenTo_width_le hn) h
    have := (Nat.pow_lt_pow_iff_right (show 1 < 10 by decide)).mp hlt
    omega

theorem digits_ne_nil (n : ℕ) : digits n ≠ [] := by
  have h := length_digits n
  have hw := width_pos n
  intro e
  rw [e, List.length_nil] at h
  omega

end Decimal

namespace Bytes

/-! ## Splitting off a run -/

/-- Every byte is a blank. -/
def AllBlank (bs : Bytes) : Prop := ∀ b ∈ bs, isBlank b = true

instance (bs : Bytes) : Decidable (AllBlank bs) := List.decidableBAll (isBlank · = true) bs

theorem allBlank_nil : AllBlank [] := fun _ h => nomatch h

/-- Every byte is a decimal digit. -/
def AllDigits (bs : Bytes) : Prop := ∀ b ∈ bs, isDigit b = true

instance (bs : Bytes) : Decidable (AllDigits bs) := List.decidableBAll (isDigit · = true) bs

theorem AllDigits.append {ds es : Bytes} (hd : AllDigits ds) (he : AllDigits es) :
    AllDigits (ds ++ es) := fun b hb => (List.mem_append.mp hb).elim (hd b) (he b)

theorem AllDigits.of_append {ds es : Bytes} (h : AllDigits (ds ++ es)) :
    AllDigits ds ∧ AllDigits es :=
  ⟨fun b hb => h b (List.mem_append_left es hb), fun b hb => h b (List.mem_append_right ds hb)⟩

theorem AllDigits.head? {ds : Bytes} (h : AllDigits ds) : ∀ b ∈ ds.head?, isDigit b = true :=
  fun b hb => h b (List.mem_of_mem_head? hb)

theorem allDigits_digits (n : ℕ) : AllDigits (Decimal.digits n) :=
  fun _ => Decimal.isDigit_of_mem_digits

theorem allDigits_zeros (n : ℕ) : AllDigits (List.replicate n 48) := by
  intro b hb
  rw [List.eq_of_mem_replicate hb]
  rfl

theorem isDigit_iff {b : UInt8} : isDigit b = true ↔ 48 ≤ b.toNat ∧ b.toNat ≤ 57 := by
  simp only [isDigit, Bool.and_eq_true, decide_eq_true_eq, UInt8.le_iff_toNat_le]
  rfl

/-- A leading run of digits is split off, as long as it can be. -/
theorem splitDigits_spec (bs : Bytes) :
    (splitDigits bs).1 ++ (splitDigits bs).2 = bs ∧ AllDigits (splitDigits bs).1 ∧
      ∀ b ∈ (splitDigits bs).2.head?, isDigit b = false := by
  rw [splitDigits, List.span_eq_takeWhile_dropWhile]
  refine ⟨List.takeWhile_append_dropWhile, fun b hb => List.mem_takeWhile_imp hb, fun b hb => ?_⟩
  have hhead := List.head?_dropWhile_not isDigit bs
  rw [show (bs.dropWhile isDigit).head? = some b from hb] at hhead
  simpa using hhead

theorem splitDigits_append {ds rest : Bytes} (hd : AllDigits ds)
    (hr : ∀ b ∈ rest.head?, isDigit b = false) : splitDigits (ds ++ rest) = (ds, rest) := by
  have hrest : rest.takeWhile isDigit = [] ∧ rest.dropWhile isDigit = rest := by
    cases rest with
    | nil => exact ⟨rfl, rfl⟩
    | cons b rest =>
      have hb := hr b rfl
      exact ⟨List.takeWhile_cons_of_neg (by simp [hb]), List.dropWhile_cons_of_neg (by simp [hb])⟩
  rw [splitDigits, List.span_eq_takeWhile_dropWhile, List.takeWhile_append_of_pos hd,
    List.dropWhile_append_of_pos hd, hrest.1, hrest.2, List.append_nil]

end Bytes

namespace Numeral

/-! ## Significant digits -/

/-- **The digits of a number are its significant ones and then zeros.** -/
theorem significant_append (n : ℕ) :
    (significant n).1 ++ List.replicate (significant n).2 48 = Decimal.digits n := by
  set ds := Decimal.digits n with hds
  have hsplit : (ds.reverse.dropWhile (· == 48)).reverse ++ (ds.reverse.takeWhile (· == 48)).reverse
      = ds := by
    rw [← List.reverse_append, List.takeWhile_append_dropWhile, List.reverse_reverse]
  have hzeros : (ds.reverse.takeWhile (· == 48)).reverse =
      List.replicate (ds.reverse.takeWhile (· == 48)).length 48 := by
    rw [List.eq_replicate_iff]
    refine ⟨List.length_reverse, fun b hb => ?_⟩
    have := List.mem_takeWhile_imp (List.mem_reverse.mp hb)
    simpa using this
  have hlen : (significant n).2 = (ds.reverse.takeWhile (· == 48)).length := by
    have := congrArg List.length hsplit
    rw [List.length_append, List.length_reverse, List.length_reverse] at this
    change ds.length - ((ds.reverse.dropWhile (· == 48)).reverse).length = _
    rw [List.length_reverse]
    omega
  rw [hlen, ← hzeros]
  exact hsplit

theorem allDigits_significant (n : ℕ) : Bytes.AllDigits (significant n).1 := by
  have h := Bytes.allDigits_digits n
  rw [← significant_append n] at h
  exact h.of_append.1

theorem value_significant (n : ℕ) :
    Decimal.value (significant n).1 * 10 ^ (significant n).2 = n := by
  have h := congrArg Decimal.value (significant_append n)
  rwa [Decimal.value_append, Decimal.value_zeros, List.length_replicate, Decimal.value_digits,
    Nat.add_zero] at h

theorem length_significant (n : ℕ) :
    (significant n).1.length + (significant n).2 = Decimal.width n := by
  have h := congrArg List.length (significant_append n)
  rwa [List.length_append, List.length_replicate, Decimal.length_digits] at h

theorem significant_ne_nil {n : ℕ} (hn : 0 < n) : (significant n).1 ≠ [] := by
  intro h
  have hv := value_significant n
  rw [h] at hv
  simp only [Decimal.value, List.foldl_nil, Nat.zero_mul] at hv
  omega

end Numeral

end AdaSupport
