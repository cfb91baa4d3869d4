import AdaSupport.Proofs.IntegerScan
import AdaSupport.Proofs.RealText

/-!
# Integers as text

* `visible_ofInteger`, `length_ofInteger_le`: the bytes of the text of an integer, and their number.
* `scanInteger_signed`: a signed run of digits is read whole.
* **`scanInteger_ofInteger`**: an integer is read back from its text.
-/

namespace AdaSupport.Numeral

/-! ## Bytes and size -/

theorem ofInteger_eq_signed (v : Int32) :
    ofInteger v = signed (v < 0) (Decimal.digits v.toInt.natAbs) := by
  simp [ofInteger, signed]

theorem visible_ofInteger (v : Int32) : Visible (ofInteger v) := by
  rw [ofInteger_eq_signed]
  exact visible_signed _ (visible_of_allDigits (Bytes.allDigits_digits _))

theorem length_ofInteger_le (v : Int32) : (ofInteger v).length ≤ 63 := by
  have hlow := v.le_toInt
  have hhigh := v.toInt_lt
  have hw : Decimal.width v.toInt.natAbs ≤ 10 :=
    Decimal.width_le_of_lt_tenTo (by decide) (lt_of_le_of_lt (b := 2 ^ 31) (by omega) (by decide))
  have hs := length_signed_le (v < 0) (Decimal.digits v.toInt.natAbs)
  rw [Decimal.length_digits] at hs
  rw [ofInteger_eq_signed]
  omega

/-! ## Reading back -/

theorem clampInteger_toInt (v : Int32) : Binary64.clampInteger v.toInt = v := by
  have hlow := v.le_toInt
  have hhigh := v.toInt_lt
  rw [Binary64.clampInteger, min_eq_left (by omega), max_eq_right (by omega), Int32.ofInt_toInt]

section Signed

variable (negative : Bool) {blanks ds tail : Bytes} (hblanks : blanks.AllBlank)
  (hd : ds.AllDigits) (hne : ds ≠ []) (ht : EndsInteger tail)

/-- A signed run of digits, and what stands around it. -/
def frontOfSigned : IntegerFront (blanks ++ (signed negative ds ++ tail)) where
  blanks := blanks
  sign := if negative then some true else none
  digits := ds
  rest := tail
  eq_append := by rw [signed_eq_signText, List.append_assoc]
  allBlank := hblanks
  startsBare _ := startsBare_of_allDigits hd hne tail
  allDigits := hd
  endsInteger := ht

include hblanks hd hne ht

/-- A signed run of digits is read whole and cut to the range of integers. -/
theorem scanInteger_signed : scanInteger (blanks ++ (signed negative ds ++ tail)) =
    some (Binary64.clampInteger
      (if negative then -(Decimal.value ds : ℤ) else Decimal.value ds)) := by
  refine ((frontOfSigned negative hblanks hd hne ht).scanInteger_of_ne_nil hne).trans ?_
  cases negative <;> rfl

end Signed

theorem signed_natAbs (v : Int32) :
    (if decide (v < 0) then -(v.toInt.natAbs : ℤ) else v.toInt.natAbs) = v.toInt := by
  have hneg : v < 0 ↔ v.toInt < 0 := Int32.lt_iff_toInt_lt
  simp only [decide_eq_true_eq]
  split_ifs with h
  · have := hneg.mp h
    omega
  · have := mt hneg.mpr h
    omega

/-- **An integer is read back from its text**, behind any blanks and in front of anything that does
not go on the number. -/
theorem scanInteger_ofInteger (v : Int32) {blanks tail : Bytes} (hblanks : blanks.AllBlank)
    (ht : EndsInteger tail) : scanInteger (blanks ++ (ofInteger v ++ tail)) = some v := by
  rw [ofInteger_eq_signed, scanInteger_signed _ hblanks (Bytes.allDigits_digits _)
    (Decimal.digits_ne_nil _) ht, Decimal.value_digits, signed_natAbs, clampInteger_toInt]

end AdaSupport.Numeral
