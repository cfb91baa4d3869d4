import AdaSupport.Numeral.Scanned
import AdaSupport.Proofs.Rounding
import AdaSupport.Proofs.Spelling

/-!
# Reading literals

* **`isNearest_decimalPattern`**: the magnitude read from a decimal is correctly rounded, whatever
  its digits and its exponent are.
* `literalText`: a decimal literal as text, from its digits and its exponent.
* `EndsReal`: text that does not go on a real in front of it.
* **`scanReal_literalText`**: a signed literal in front of such text is read whole.
-/

namespace AdaSupport

theorem twoTo_add (m n : ℕ) : twoTo (m + n) = twoTo m * twoTo n := pow_add 2 m n

theorem tenTo_le_tenTo {m n : ℕ} (h : m ≤ n) : tenTo m ≤ tenTo n :=
  Nat.pow_le_pow_right (by decide) h

theorem twoTo_le_twoTo {m n : ℕ} (h : m ≤ n) : twoTo m ≤ twoTo n :=
  Nat.pow_le_pow_right (by decide) h

theorem twoTo_three_mul_le_tenTo (k : ℕ) : twoTo (3 * k) ≤ tenTo k := by
  rw [twoTo_eq_pow, tenTo_eq_pow, pow_mul]
  exact Nat.pow_le_pow_left (by decide) k

namespace Numeral

open Pattern

/-! ## Correct rounding -/

theorem units_infinity_le : units infinity ≤ tenTo 400 * unitsPerOne := by decide +kernel

theorem two_mul_unitsPerOne : 2 * unitsPerOne = twoTo 1075 := by decide +kernel

theorem units_one : units 1 = 1 := rfl

theorem zpow_eq_tenTo {e : ℤ} (he : 0 ≤ e) : (10 : ℚ) ^ e = (tenTo e.toNat : ℕ) := by
  rw [tenTo_eq_pow, Nat.cast_pow, Nat.cast_ofNat, ← zpow_natCast, Int.toNat_of_nonneg he]

theorem zpow_eq_inv_tenTo {e : ℤ} (he : e < 0) : (10 : ℚ) ^ e = ((tenTo (-e).toNat : ℕ) : ℚ)⁻¹ := by
  rw [← zpow_eq_tenTo (by omega), zpow_neg, inv_inv]

theorem isNearest_large {digits : ℕ} {exponent : ℤ} (hd : digits ≠ 0) (he : 400 < exponent) :
    IsNearest (digits * 10 ^ exponent) infinity := by
  have hle : tenTo 400 ≤ digits * tenTo exponent.toNat :=
    (tenTo_le_tenTo (by omega)).trans (Nat.le_mul_of_pos_left _ (Nat.pos_of_ne_zero hd))
  refine isNearest_infinity ?_
  calc value infinity ≤ (tenTo 400 : ℕ) := by
        rw [value, div_le_iff₀ unitsPerOne_cast_pos]; exact_mod_cast units_infinity_le
    _ ≤ (digits * tenTo exponent.toNat : ℕ) := Nat.cast_le.mpr hle
    _ = digits * 10 ^ exponent := by rw [zpow_eq_tenTo (by omega), Nat.cast_mul]

theorem isNearest_small {digits : ℕ} {exponent : ℤ} (he : exponent < 0)
    (h : digits.log2 + 1080 < 3 * (-exponent).toNat) : IsNearest (digits * 10 ^ exponent) 0 := by
  have hu := unitsPerOne_cast_pos
  have hten : (0 : ℚ) < tenTo (-exponent).toNat := Nat.cast_pos.mpr (tenTo_pos _)
  have hlt : digits * (2 * unitsPerOne) < tenTo (-exponent).toNat :=
    calc digits * (2 * unitsPerOne) < twoTo (digits.log2 + 1) * twoTo 1075 := by
          rw [two_mul_unitsPerOne]
          exact Nat.mul_lt_mul_of_pos_right Nat.lt_log2_self (twoTo_pos 1075)
      _ = twoTo (digits.log2 + 1 + 1075) := (twoTo_add _ _).symm
      _ ≤ twoTo (3 * (-exponent).toNat) := twoTo_le_twoTo (by omega)
      _ ≤ tenTo (-exponent).toNat := twoTo_three_mul_le_tenTo _
  have hlt' : ((digits * (2 * unitsPerOne) : ℕ) : ℚ) < (tenTo (-exponent).toNat : ℕ) :=
    Nat.cast_lt.mpr hlt
  rw [Nat.cast_mul, Nat.cast_mul, Nat.cast_ofNat] at hlt'
  refine isNearest_zero ?_
  calc (digits : ℚ) * 10 ^ exponent < 1 / (2 * unitsPerOne) := by
        rw [zpow_eq_inv_tenTo he, ← div_eq_mul_inv, div_lt_div_iff₀ hten (mul_pos two_pos hu),
          one_mul]
        exact hlt'
    _ = halfway 0 := by
        rw [halfway, value_zero, zero_add, zero_add, value, units_one, Nat.cast_one]
        field_simp

/-- **The pattern that a decimal rounds to.** -/
theorem isNearest_decimalPattern (digits : ℕ) (exponent : ℤ) :
    IsNearest (digits * 10 ^ exponent) (decimalPattern digits exponent) := by
  have hu := unitsPerOne_cast_pos.ne'
  unfold decimalPattern
  split_ifs with hd he hlarge hsmall
  · rw [hd, Nat.cast_zero, zero_mul]
    exact isNearest_zero (value_zero ▸ value_lt_halfway 0)
  · exact isNearest_large hd hlarge
  · have h := isNearest_nearest (digits * tenTo exponent.toNat * unitsPerOne) Nat.one_pos
    rwa [Nat.cast_one, div_one, Nat.cast_mul, mul_div_cancel_right₀ _ hu, Nat.cast_mul,
      ← zpow_eq_tenTo he] at h
  · exact isNearest_small (by omega) hsmall
  · have h := isNearest_nearest (digits * unitsPerOne) (tenTo_pos (-exponent).toNat)
    rwa [Nat.cast_mul, div_right_comm, mul_div_cancel_right₀ _ hu, div_eq_mul_inv,
      ← zpow_eq_inv_tenTo (by omega)] at h

/-! ## Literals as text -/

/-- A text with a minus sign in front when `negative` is set. -/
def signed (negative : Bool) (body : Bytes) : Bytes := if negative then 45 :: body else body

/-- The exponent part of a literal. -/
def exponentText : Option ℤ → Bytes
  | none => []
  | some e => 101 :: signed (e < 0) (Decimal.digits e.natAbs)

/-- The fraction part of a literal, empty when it has no digit. -/
def fractionText (fraction : Bytes) : Bytes := if fraction = [] then [] else 46 :: fraction

/-- A decimal literal. -/
def literalText (whole fraction : Bytes) (exponent : Option ℤ) : Bytes :=
  whole ++ (fractionText fraction ++ exponentText exponent)

/-- The text does not go on a real in front of it: it starts neither with a digit or a point nor
with the letter `e`, `i` or `x`. -/
def EndsReal (tail : Bytes) : Prop :=
  ∀ b ∈ tail.head?, Bytes.isDigit b = false ∧ b ≠ 46 ∧ Bytes.toLower b ∉ [101, 105, 120]

section Text

variable {tail : Bytes}

theorem endsReal_nil : EndsReal [] := fun _ h => nomatch h

theorem head?_append_forall {P : UInt8 → Prop} {bs cs : Bytes} (hb : ∀ b ∈ bs.head?, P b)
    (hc : ∀ b ∈ cs.head?, P b) : ∀ b ∈ (bs ++ cs).head?, P b := by
  cases bs with
  | nil => exact hc
  | cons b bs => exact hb

theorem toLower_of_isDigit {b : UInt8} (h : Bytes.isDigit b = true) : Bytes.toLower b = b := by
  have hb := Bytes.isDigit_iff.mp h
  refine if_neg fun hc => ?_
  have : 65 ≤ b.toNat := UInt8.le_iff_toNat_le.mp hc.1
  omega

theorem signed_eq_signText (negative : Bool) (body : Bytes) :
    signed negative body = signText (if negative then some true else none) ++ body := by
  cases negative <;> rfl

theorem splitSign_signed (negative : Bool) {body : Bytes} (h : StartsBare body) :
    Bytes.splitSign (signed negative body) = (negative, body) := by
  rw [signed_eq_signText, splitSign_signText fun _ => h.startsUnsigned]
  cases negative <;> rfl

theorem splitExponent_exponentText {exponent : Option ℤ}
    (he : ∀ e ∈ exponent, e.natAbs < exponentBound) (ht : EndsReal tail) :
    splitExponent (exponentText exponent ++ tail) = (exponent.getD 0, tail) := by
  cases exponent with
  | none =>
    cases tail with
    | nil => rfl
    | cons b rest =>
      have hb : ¬ (b = 101 ∨ b = 69) := by
        have := (ht b rfl).2.2
        rintro (rfl | rfl) <;> exact absurd this (by decide)
      simp [exponentText, splitExponent, hb]
  | some e =>
    have hd := Bytes.allDigits_digits e.natAbs
    have hds := startsBare_of_allDigits hd (Decimal.digits_ne_nil e.natAbs) tail
    have hsign : Bytes.splitSign (signed (e < 0) (Decimal.digits e.natAbs) ++ tail) =
        (decide (e < 0), Decimal.digits e.natAbs ++ tail) := by
      rw [← splitSign_signed (decide (e < 0)) hds]
      congr 1
      unfold signed
      split_ifs <;> rfl
    have hsplit : Bytes.splitDigits (Decimal.digits e.natAbs ++ tail) =
        (Decimal.digits e.natAbs, tail) :=
      Bytes.splitDigits_append hd fun b hb => (ht b hb).1
    have hvalue : Decimal.leadingValue exponentBound (Decimal.digits e.natAbs) = e.natAbs := by
      have hlt := he e rfl
      rw [Decimal.leadingValue_eq_value (by rw [Decimal.value_digits]; omega),
        Decimal.value_digits]
    simp only [exponentText, List.cons_append, splitExponent, hsign, hsplit, hvalue,
      Decimal.digits_ne_nil, ne_eq, not_false_eq_true, true_or, and_self, if_true,
      decide_eq_true_eq, Option.getD_some]
    congr 1
    split_ifs <;> omega

theorem splitFraction_fractionText {fraction : Bytes} (hf : fraction.AllDigits) {rest : Bytes}
    (hr : ∀ b ∈ rest.head?, Bytes.isDigit b = false ∧ b ≠ 46) :
    splitFraction (fractionText fraction ++ rest) = (fraction, rest) := by
  unfold fractionText
  split_ifs with h
  · subst h
    cases rest with
    | nil => rfl
    | cons b rest => simp [splitFraction, (hr b rfl).2]
  · simp only [List.cons_append, splitFraction, if_true]
    exact Bytes.splitDigits_append hf fun b hb => (hr b hb).1

theorem exponentText_head? (exponent : Option ℤ) :
    ∀ b ∈ (exponentText exponent).head?, b = 101 := by
  cases exponent with
  | none => exact fun b h => nomatch h
  | some e => rintro b ⟨⟩; rfl

theorem fractionText_head? (fraction : Bytes) : ∀ b ∈ (fractionText fraction).head?, b = 46 := by
  unfold fractionText
  split_ifs
  · exact fun b h => nomatch h
  · rintro b ⟨⟩; rfl

/-- A literal is split off with the digits and the exponent it was written with. -/
theorem splitDecimal_literalText {whole fraction : Bytes} {exponent : Option ℤ}
    (hw : whole.AllDigits) (hne : whole ≠ []) (hf : fraction.AllDigits)
    (he : ∀ e ∈ exponent, e.natAbs < exponentBound) (ht : EndsReal tail) :
    splitDecimal (literalText whole fraction exponent ++ tail) =
      some (.decimal (Decimal.value (whole ++ fraction)) (exponent.getD 0 - fraction.length),
        tail) := by
  have hexp : ∀ b ∈ (exponentText exponent ++ tail).head?, Bytes.isDigit b = false ∧ b ≠ 46 :=
    head?_append_forall (fun b hb => by rw [exponentText_head? _ b hb]; decide)
      fun b hb => ⟨(ht b hb).1, (ht b hb).2.1⟩
  have hfrac : ∀ b ∈ (fractionText fraction ++ (exponentText exponent ++ tail)).head?,
      Bytes.isDigit b = false :=
    head?_append_forall (fun b hb => by rw [fractionText_head? _ b hb]; decide)
      fun b hb => (hexp b hb).1
  rw [literalText, List.append_assoc, List.append_assoc, splitDecimal,
    Bytes.splitDigits_append hw hfrac]
  simp only [splitFraction_fractionText hf hexp, splitExponent_exponentText he ht, hne, false_and,
    if_false]

/-! ## Signed reals -/

theorem signed_append (negative : Bool) (body tail : Bytes) :
    signed negative body ++ tail = signed negative (body ++ tail) := by
  cases negative <;> rfl

theorem afterWord?_cons_of_ne {b c : UInt8} (h : Bytes.toLower b ≠ c) (bs word : Bytes) :
    Bytes.afterWord? (b :: bs) (c :: word) = none := by
  simp [Bytes.afterWord?, h]

theorem afterWord?_inf (tail : Bytes) : Bytes.afterWord? (105 :: 110 :: 102 :: tail)
    (Bytes.ofAscii ['i', 'n', 'f']) = some tail := by
  change Bytes.afterWord? _ [105, 110, 102] = some tail
  rw [Bytes.afterWord?, if_pos (by rfl)]
  rfl

theorem afterWord?_nan (tail : Bytes) : Bytes.afterWord? (110 :: 97 :: 110 :: tail)
    (Bytes.ofAscii ['n', 'a', 'n']) = some tail := by
  change Bytes.afterWord? _ [110, 97, 110] = some tail
  rw [Bytes.afterWord?, if_pos (by rfl)]
  rfl

theorem scan_eq_none {b : UInt8} {bs : Bytes} (h : ∀ c ∈ bs.head?, Bytes.toLower c ≠ 120) :
    Hexadecimal.scan (b :: bs) = none := by
  have hafter : Bytes.afterWord? (b :: bs) [48, 120] = none := by
    cases bs with
    | nil => simp [Bytes.afterWord?]
    | cons c bs => simp [Bytes.afterWord?, h c rfl]
  rw [Hexadecimal.scan, show Bytes.ofAscii ['0', 'x'] = [48, 120] from rfl, hafter, Option.map_none]

theorem splitLiteral_of_ne {b : UInt8} (hi : Bytes.toLower b ≠ 105) (hn : Bytes.toLower b ≠ 110)
    (bs : Bytes) : splitLiteral (b :: bs) = splitDecimal (b :: bs) := by
  rw [splitLiteral, show Bytes.ofAscii ['i', 'n', 'f', 'i', 'n', 'i', 't', 'y'] =
      105 :: [110, 102, 105, 110, 105, 116, 121] from rfl, afterWord?_cons_of_ne hi,
    show Bytes.ofAscii ['i', 'n', 'f'] = 105 :: [110, 102] from rfl, afterWord?_cons_of_ne hi,
    show Bytes.ofAscii ['n', 'a', 'n'] = 110 :: [97, 110] from rfl, afterWord?_cons_of_ne hn]

theorem splitLiteral_of_isDigit {b : UInt8} (h : Bytes.isDigit b = true) (bs : Bytes) :
    splitLiteral (b :: bs) = splitDecimal (b :: bs) := by
  refine splitLiteral_of_ne ?_ ?_ bs <;>
    (rw [toLower_of_isDigit h]; rintro rfl; exact absurd h (by decide))

/-- What stands behind blanks and a sign is read as a hexadecimal literal, or else as any other. -/
theorem scanReal_append {blanks : Bytes} (hblanks : blanks.AllBlank) {sign : Option Bool}
    {body : Bytes} (hbody : sign = none → StartsBare body) :
    scanReal (blanks ++ (signText sign ++ body)) = match Hexadecimal.scan body with
      | some p => some (.ofPattern (sign.getD false) p)
      | none => (splitLiteral body).map fun l => .ofPattern (sign.getD false) l.1.pattern := by
  cases hscan : Hexadecimal.scan body <;>
    simp only [scanReal, skipBlanks_append hblanks hbody,
      splitSign_signText fun h => (hbody h).startsUnsigned, hscan]

theorem scanReal_signText (sign : Option Bool) {body : Bytes} (hbody : StartsBare body) :
    scanReal (signText sign ++ body) = match Hexadecimal.scan body with
      | some p => some (.ofPattern (sign.getD false) p)
      | none => (splitLiteral body).map fun l => .ofPattern (sign.getD false) l.1.pattern :=
  scanReal_append Bytes.allBlank_nil fun _ => hbody

/-- A literal behind a sign is read, unless it goes on as a hexadecimal one. -/
theorem scanReal_signed (negative : Bool) {b : UInt8} {bs rest : Bytes} {l : Literal}
    (hbare : StartsBare (b :: bs)) (hnext : ∀ c ∈ bs.head?, Bytes.toLower c ≠ 120)
    (h : splitLiteral (b :: bs) = some (l, rest)) :
    scanReal (signed negative (b :: bs)) = some (.ofPattern negative l.pattern) := by
  rw [signed_eq_signText, scanReal_signText _ hbare, scan_eq_none hnext, h]
  cases negative <;> rfl

/-- **A signed decimal literal is read whole.** -/
theorem scanReal_literalText (negative : Bool) {whole fraction : Bytes} {exponent : Option ℤ}
    (hw : whole.AllDigits) (hne : whole ≠ []) (hf : fraction.AllDigits)
    (he : ∀ e ∈ exponent, e.natAbs < exponentBound) (ht : EndsReal tail) :
    scanReal (signed negative (literalText whole fraction exponent) ++ tail) =
      some (.ofPattern negative (decimalPattern (Decimal.value (whole ++ fraction))
        (exponent.getD 0 - fraction.length))) := by
  have hsplit := splitDecimal_literalText hw hne hf he ht
  obtain ⟨b, ds, rfl⟩ := List.exists_cons_of_ne_nil hne
  have hb : Bytes.isDigit b = true := hw b List.mem_cons_self
  have hds : Bytes.AllDigits ds := fun c hc => hw c (List.mem_cons_of_mem b hc)
  -- no byte behind the first one makes the literal hexadecimal
  have hnext : ∀ c ∈ (ds ++ (fractionText fraction ++ exponentText exponent ++ tail)).head?,
      Bytes.toLower c ≠ 120 := by
    refine head?_append_forall (fun c hc => ?_) (head?_append_forall (head?_append_forall
      (fun c hc => ?_) fun c hc => ?_) fun c hc => ?_)
    · have hc := hds.head? c hc
      rw [toLower_of_isDigit hc]
      rintro rfl
      exact absurd hc (by decide)
    · rw [fractionText_head? _ c hc]; decide
    · rw [exponentText_head? _ c hc]; decide
    · have := (ht c hc).2.2
      simp only [List.mem_cons, not_or] at this
      exact this.2.2.1
  have hbody : literalText (b :: ds) fraction exponent ++ tail =
      b :: (ds ++ (fractionText fraction ++ exponentText exponent ++ tail)) := by
    simp [literalText]
  rw [hbody] at hsplit
  rw [signed_append, hbody]
  exact scanReal_signed negative (startsBare_of_isDigit hb _) hnext
    ((splitLiteral_of_isDigit hb _).trans hsplit)

theorem scanReal_infinity (negative : Bool) (ht : EndsReal tail) :
    scanReal (signed negative (Bytes.ofAscii ['i', 'n', 'f']) ++ tail) =
      some (.ofPattern negative infinity) := by
  have hlong : Bytes.afterWord? (105 :: 110 :: 102 :: tail)
      (Bytes.ofAscii ['i', 'n', 'f', 'i', 'n', 'i', 't', 'y']) = none := by
    change Bytes.afterWord? _ [105, 110, 102, 105, 110, 105, 116, 121] = none
    cases tail with
    | nil => decide
    | cons b tail =>
      have hb := (ht b rfl).2.2
      simp only [List.mem_cons, not_or] at hb
      simp [Bytes.afterWord?, hb.2.1]
  have hlit : splitLiteral (105 :: 110 :: 102 :: tail) = some (.infinity, tail) := by
    simp only [splitLiteral, hlong, afterWord?_inf]
  rw [signed_append]
  refine scanReal_signed negative (startsBare_cons (by decide) (by decide)) ?_ hlit
  rintro c ⟨⟩
  decide

theorem scanReal_nan (tail : Bytes) :
    scanReal (Bytes.ofAscii ['n', 'a', 'n'] ++ tail) = some .nan := by
  have hlit : splitLiteral (110 :: 97 :: 110 :: tail) = some (.nan, tail) := by
    have hinf : ∀ word, Bytes.afterWord? (110 :: 97 :: 110 :: tail) (105 :: word) = none :=
      afterWord?_cons_of_ne (by decide) _
    rw [splitLiteral, show Bytes.ofAscii ['i', 'n', 'f', 'i', 'n', 'i', 't', 'y'] =
        105 :: [110, 102, 105, 110, 105, 116, 121] from rfl, hinf,
      show Bytes.ofAscii ['i', 'n', 'f'] = 105 :: [110, 102] from rfl, hinf]
    simp only [afterWord?_nan]
  refine scanReal_signed false (startsBare_cons (by decide) (by decide)) ?_ hlit
  rintro c ⟨⟩
  decide

end Text

end Numeral

end AdaSupport
