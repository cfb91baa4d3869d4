import AdaSupport.Numeral.Scanned
import AdaSupport.Proofs.Spelling

/-!
# Reading integers

An integer in front of a string is read behind blanks and one optional sign, to the end of its run
of digits. The digits are counted up to a bound only, but the bound lies outside the range of
integers, so the number is cut to that range as if it had been counted in full.

* `EndsInteger`: text that does not go on an integer in front of it.
* `IntegerFront bs`: the blanks, the sign, the digits and the rest of `bs`, each part as long as it
  can be.
* `toInt_clampInteger`: an integer that is cut to the range.
* `IntegerFront.scanInteger_eq`: what is read of such a string.
* **`scanInteger_saturates`**: the number in front of any string, cut to the range.
-/

namespace AdaSupport

theorem Binary64.toInt_clampInteger (n : ℤ) :
    (clampInteger n).toInt = max (-2 ^ 31) (min n (2 ^ 31 - 1)) :=
  Int32.toInt_ofInt_of_le (by omega) (by omega)

namespace Numeral

/-- The text does not go on an integer in front of it. -/
def EndsInteger (tail : Bytes) : Prop := ∀ b ∈ tail.head?, Bytes.isDigit b = false

/-- A string that is taken apart into blanks, one optional sign, digits and the rest. Each part is
as long as it can be. -/
structure IntegerFront (bs : Bytes) where
  blanks : Bytes
  sign : Option Bool
  digits : Bytes
  rest : Bytes
  eq_append : bs = blanks ++ (signText sign ++ (digits ++ rest))
  allBlank : blanks.AllBlank
  startsBare : sign = none → StartsBare (digits ++ rest)
  allDigits : digits.AllDigits
  endsInteger : EndsInteger rest

theorem nonempty_integerFront (bs : Bytes) : Nonempty (IntegerFront bs) := by
  obtain ⟨blanks, sign, body, rfl, hblanks, hbody⟩ := exists_blanks_signText bs
  obtain ⟨hsplit, hdigits, hend⟩ := Bytes.splitDigits_spec body
  rw [← hsplit] at hbody
  exact ⟨blanks, sign, _, _, by rw [hsplit], hblanks, hbody, hdigits, hend⟩

namespace IntegerFront

variable {bs : Bytes} (f : IntegerFront bs)

/-- The number that the sign and the whole run of digits denote. -/
def value : ℤ := signedValue f.sign (Decimal.value f.digits)

/-- A string with the same integer and other text behind it. -/
def withRest (hne : f.digits ≠ []) {tail : Bytes} (ht : EndsInteger tail) :
    IntegerFront (f.blanks ++ (signText f.sign ++ (f.digits ++ tail))) where
  blanks := f.blanks
  sign := f.sign
  digits := f.digits
  rest := tail
  eq_append := rfl
  allBlank := f.allBlank
  startsBare _ := startsBare_of_allDigits f.allDigits hne tail
  allDigits := f.allDigits
  endsInteger := ht

theorem scanInteger_eq : scanInteger bs =
    if f.digits = [] then none else some (Binary64.clampInteger f.value) := by
  have hskip : bs.skipBlanks = signText f.sign ++ (f.digits ++ f.rest) :=
    (congrArg Bytes.skipBlanks f.eq_append).trans (skipBlanks_append f.allBlank f.startsBare)
  have hsign : Bytes.splitSign (signText f.sign ++ (f.digits ++ f.rest)) =
      (f.sign.getD false, f.digits ++ f.rest) :=
    splitSign_signText fun h => (f.startsBare h).startsUnsigned
  rw [scanInteger, hskip, hsign]
  simp only [Bytes.splitDigits_append f.allDigits f.endsInteger, Decimal.cappedValue_eq_min, value,
    signedValue, Binary64.clampInteger]
  -- the bound is reached only by numbers that are cut anyway
  congr 3
  split_ifs <;> omega

theorem scanInteger_of_ne_nil (hne : f.digits ≠ []) :
    scanInteger bs = some (Binary64.clampInteger f.value) := by
  rw [f.scanInteger_eq, if_neg hne]

end IntegerFront

/-- **The integer in front of any string, cut to the range of integers.** There is none exactly when
no digit follows the blanks and the sign. Otherwise it is the number that the whole run of digits
denotes, and the text behind it has no influence. -/
theorem scanInteger_saturates (bs : Bytes) : Nonempty (IntegerFront bs) ∧ ∀ f : IntegerFront bs,
    (scanInteger bs = none ↔ f.digits = []) ∧
      (f.digits ≠ [] →
        (∃ v, scanInteger bs = some v ∧ v.toInt = max (-2 ^ 31) (min f.value (2 ^ 31 - 1))) ∧
        ∀ tail, EndsInteger tail →
          scanInteger (f.blanks ++ (signText f.sign ++ (f.digits ++ tail))) = scanInteger bs) := by
  refine ⟨nonempty_integerFront bs, fun f => ⟨?_, fun hne => ⟨?_, fun tail ht => ?_⟩⟩⟩
  · rw [f.scanInteger_eq]
    split_ifs with h <;> simp [h]
  · exact ⟨_, f.scanInteger_of_ne_nil hne, Binary64.toInt_clampInteger _⟩
  · exact ((f.withRest hne ht).scanInteger_of_ne_nil hne).trans (f.scanInteger_of_ne_nil hne).symm

/-- Blanks, a minus sign, leading zeros, and one more than the lowest integer has below zero. -/
def belowRange : IntegerFront (Bytes.ofAscii " \t-0002147483649.5".toList) where
  blanks := [32, 9]
  sign := some true
  digits := Bytes.ofAscii "0002147483649".toList
  rest := [46, 53]
  eq_append := by decide
  allBlank := by decide
  startsBare h := nomatch h
  allDigits := by decide
  endsInteger := by rintro b ⟨⟩; decide

/-- A number below the range is read as the lowest integer, whatever stands behind it. -/
theorem scanInteger_saturates_below : belowRange.digits ≠ [] ∧ EndsInteger [] ∧
    (∃ v, scanInteger (Bytes.ofAscii " \t-0002147483649.5".toList) = some v ∧
      v.toInt = -2147483648) ∧
    scanInteger (Bytes.ofAscii " \t-0002147483649".toList) =
      scanInteger (Bytes.ofAscii " \t-0002147483649.5".toList) := by
  have hne : belowRange.digits ≠ [] := by decide
  have hend : EndsInteger [] := fun b h => nomatch h
  have hvalue : belowRange.value = -2147483649 := by decide
  obtain ⟨⟨v, hv, hclamp⟩, htail⟩ := ((scanInteger_saturates _).2 belowRange).2 hne
  rw [hvalue] at hclamp
  exact ⟨hne, hend, ⟨v, hv, hclamp⟩, htail [] hend⟩

end Numeral

end AdaSupport
