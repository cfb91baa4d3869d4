import AdaSupport.Proofs.TextExpressions
import Mathlib.Data.Int.Notation
import Mathlib.Tactic.SplitIfs

/-!
# Laws of substrings

Start and length of a substring are signed words, and three bounds cut it: the length asked for, the
end of the text, and the capacity of a result. One equation covers all starts that are not negative;
in it a negative length counts as zero.

* `substring_of_nonneg`: a substring from a start that is not negative.
* `substring_substring`: a substring of a substring.
* `concat_substring`: a text put together from two parts.
* `length_substring`, `getElem?_substring`: the length of a substring, and its bytes.
* **`substring_composes`**: the laws together.
-/

namespace AdaSupport.Text

/-! ## One equation -/

theorem substring_of_neg (t : Text) {i n : Int32} (h : i.toInt < 0 ∨ n.toInt < 0) :
    t.substring i n = [] := by
  simp only [substring, Int32.lt_iff_toInt_lt]
  exact if_pos h

theorem substring_of_nonneg (t : Text) {i : Int32} (hi : 0 ≤ i.toInt) (n : Int32) :
    t.substring i n = (t.bytes.drop i.toInt.toNat).take (min n.toInt.toNat maxLength) := by
  by_cases hn : n.toInt < 0
  · rw [substring_of_neg t (.inr hn), Int.toNat_of_nonpos (Int.le_of_lt hn), Nat.zero_min,
      List.take_zero]
  · simp only [substring, Int32.lt_iff_toInt_lt]
    exact if_neg (not_or.mpr ⟨Int.not_lt.mpr hi, hn⟩)

/-! ## Parts of parts -/

theorem min_toNat_sub {m n j : ℤ} (hj : 0 ≤ j) (hn : j ≤ min n 1023) :
    min (min m.toNat 1023) (min n.toNat 1023 - j.toNat) =
      min (min m (min n 1023 - j)).toNat 1023 := by
  have hcut : min n.toNat 1023 = (min n 1023).toNat := by omega
  have hle : min n 1023 ≤ 1023 := by omega
  rw [hcut]
  generalize min n 1023 = c at hn hle
  omega

theorem substring_substring (t : Text) {i j n : Int32} (m : Int32) (hi : 0 ≤ i.toInt)
    (hj : 0 ≤ j.toInt) (hn : j.toInt ≤ min n.toInt 1023)
    (hij : i.toInt + j.toInt ≤ 2147483647) :
    Text.substring (some (t.substring i n)) j m =
      t.substring (.ofInt (i.toInt + j.toInt))
        (.ofInt (min m.toInt (min n.toInt 1023 - j.toInt))) := by
  have hm := m.le_toInt
  have hstart : (Int32.ofInt (i.toInt + j.toInt)).toInt = i.toInt + j.toInt :=
    Int32.toInt_ofInt_of_le (by omega) (by omega)
  have hlength : (Int32.ofInt (min m.toInt (min n.toInt 1023 - j.toInt))).toInt =
      min m.toInt (min n.toInt 1023 - j.toInt) :=
    Int32.toInt_ofInt_of_le (by omega) (by omega)
  rw [substring_of_nonneg _ hj, substring_of_nonneg t hi, substring_of_nonneg t (by omega), hstart,
    hlength]
  simp only [bytes_some, List.drop_take, List.drop_drop, List.take_take, maxLength]
  have hdrop : i.toInt.toNat + j.toInt.toNat = (i.toInt + j.toInt).toNat := by omega
  rw [hdrop, min_toNat_sub hj hn]

theorem concat_substring (t : Text) {k n : Int32} (hk : 0 ≤ k.toInt)
    (hn : (t.bytes.length : ℤ) - k.toInt ≤ n.toInt) :
    Text.concat (some (t.substring 0 k)) (some (t.substring k n)) = t.bytes.take 1023 := by
  have hzero : (0 : Int32).toInt = 0 := rfl
  rw [substring_of_nonneg t (Int.le_of_eq hzero.symm), substring_of_nonneg t hk, hzero]
  simp only [concat, bytes_some, maxLength, Int.toNat_zero, List.drop_zero]
  have hfront : (t.bytes.take (min k.toInt.toNat 1023)).take 1023 =
      (t.bytes.take k.toInt.toNat).take 1023 := by
    rw [List.take_take, List.take_take]
    congr 1
    omega
  have hrest : ((t.bytes.drop k.toInt.toNat).take (min n.toInt.toNat 1023)).take 1023 =
      (t.bytes.drop k.toInt.toNat).take 1023 := by
    rw [List.take_take, List.take_eq_take_iff, List.length_drop]
    omega
  rw [take_append_congr hfront hrest, List.take_append_drop]

/-! ## Length and bytes -/

theorem length_substring (t : Text) (i n : Int32) : (t.substring i n).length =
    if i.toInt < 0 ∨ n.toInt < 0 ∨ (t.bytes.length : ℤ) ≤ i.toInt then 0
    else min (min n.toInt.toNat (t.bytes.length - i.toInt.toNat)) 1023 := by
  by_cases hi : i.toInt < 0
  · rw [substring_of_neg t (.inl hi), if_pos (.inl hi), List.length_nil]
  · rw [substring_of_nonneg t (Int.not_lt.mp hi), List.length_take, List.length_drop, maxLength]
    split_ifs <;> omega

theorem getElem?_substring (t : Text) {i n : Int32} {p : ℕ} (hp : p < (t.substring i n).length) :
    (t.substring i n)[p]? = t.bytes[i.toInt.toNat + p]? := by
  by_cases hi : i.toInt < 0
  · rw [substring_of_neg t (.inl hi)] at hp
    exact absurd hp (Nat.not_lt_zero p)
  · rw [substring_of_nonneg t (Int.not_lt.mp hi)] at hp ⊢
    rw [List.getElem?_take_of_lt (by rw [List.length_take] at hp; omega), List.getElem?_drop]

/-! ## The laws -/

/-- **Substrings compose, split and stay within bounds.** A substring of a substring is one of the
text, from the sum of the starts on and as long as both lengths and the capacity allow; the two
parts of a text joined are its front; a substring is empty from outside the text, and otherwise
holds the bytes from its start on up to the nearest of the three bounds. -/
theorem substring_composes (t : Text) :
    (∀ i j n m : Int32, 0 ≤ i.toInt → 0 ≤ j.toInt → j.toInt ≤ min n.toInt 1023 →
      i.toInt + j.toInt ≤ 2147483647 →
        Text.substring (some (t.substring i n)) j m = t.substring (.ofInt (i.toInt + j.toInt))
          (.ofInt (min m.toInt (min n.toInt 1023 - j.toInt)))) ∧
      (∀ k n : Int32, 0 ≤ k.toInt → (t.bytes.length : ℤ) - k.toInt ≤ n.toInt →
        Text.concat (some (t.substring 0 k)) (some (t.substring k n)) = t.bytes.take 1023) ∧
      ∀ start length : Int32,
        ((t.substring start length).length =
          if start.toInt < 0 ∨ length.toInt < 0 ∨ (t.bytes.length : ℤ) ≤ start.toInt then 0
          else min (min length.toInt.toNat (t.bytes.length - start.toInt.toNat)) 1023) ∧
          ∀ p < (t.substring start length).length,
            (t.substring start length)[p]? = t.bytes[start.toInt.toNat + p]? :=
  ⟨fun _ _ _ m hi hj hn hij => substring_substring t m hi hj hn hij,
    fun _ _ hk hn => concat_substring t hk hn,
    fun start length => ⟨length_substring t start length, fun _ hp => getElem?_substring t hp⟩⟩

/-- A text longer than a result. -/
def counted : Text := some ((List.range 1100).map Nat.toUInt8)

/-- A part of a part that ends at the capacity, a split behind the end with a negative length, and
the last start that there is. -/
theorem substring_composes_at_bounds :
    Text.substring (some (counted.substring 50 2000)) 1000 100 =
        (List.range' 1050 23).map Nat.toUInt8 ∧
      Text.concat (some (counted.substring 0 2000)) (some (counted.substring 2000 (-900))) =
        (List.range 1023).map Nat.toUInt8 ∧
      (counted.substring 2147483647 2147483647).length = 0 := by
  obtain ⟨hpart, hsplit, hbounds⟩ := substring_composes counted
  refine ⟨?_, ?_, ?_⟩
  · exact (hpart 50 1000 2000 100 (by decide) (by decide) (by decide) (by decide)).trans
      (by decide +kernel)
  · exact (hsplit 2000 (-900) (by decide) (by decide +kernel)).trans (by decide +kernel)
  · exact (hbounds 2147483647 2147483647).1.trans (by decide +kernel)

end AdaSupport.Text
