import AdaSupport.Proofs.HexadecimalScan
import AdaSupport.Proofs.Literal

/-!
# Hexadecimal and decimal spellings of one number

* `splitDecimal_text`: a decimal spelling is read with all its digits, and with an exponent that is
  exact below a bound.
* `isNearest_decimal`: a decimal spelling is rounded to nearest.
* `dyadic`: decimal spellings of the numbers that hexadecimal spellings stand for.
* `ReadApart`, `scanReal_disagree`: spellings of one number that do not give the same bits, since a
  digit is dropped, the number is rounded twice, or an exponent is cut.
* **`scanReal_agree`**: up to these cuts both spellings give the same bits, unless the number is
  rounded to a tie first.
-/

namespace AdaSupport.Numeral

open Pattern

/-! ## Decimal spellings -/

theorem decimal_isRun_iff {ds : Bytes} : Form.decimal.IsRun ds ↔ ds.AllDigits := by
  refine forall₂_congr fun b _ => ?_
  change (decimalDigit? b).isSome ↔ _
  unfold decimalDigit?
  split_ifs with h <;> simp [h]

theorem decimal_run {ds : Bytes} (h : ds.AllDigits) : Form.decimal.run ds = Decimal.value ds := by
  induction ds using List.reverseRecOn with
  | nil => rfl
  | append_singleton ds b ih =>
    obtain ⟨hds, hb⟩ := h.of_append
    have hdigit : Form.decimal.digit b = Bytes.digitValue b := by
      change (decimalDigit? b).getD 0 = _
      rw [decimalDigit?, if_pos (hb b List.mem_cons_self), Option.getD_some]
    rw [Form.run_append, Form.run_singleton, Decimal.value_append_singleton, ih hds, hdigit,
      mul_comm]
    rfl

section Decimal

variable (d : Spelling .decimal)

/-- The exponent as it is read: further digits do not count once it has reached its bound. -/
def readExponent : ℤ :=
  (d.power.map fun p => signedValue p.sign (Decimal.leadingValue exponentBound p.digits)).getD 0

theorem decimal_digits : Bytes.AllDigits d.digits := decimal_isRun_iff.mp d.isRun

theorem head?_powerText_decimal : ∀ b ∈ (powerText d.power).head?,
    Bytes.isDigit b = false ∧ b ≠ 46 := by
  cases hp : d.power with
  | none => exact fun b h => nomatch h
  | some p =>
    rintro b ⟨⟩
    rcases (toLower_eq_iff (by decide)).mp p.toLower_letter with h | h <;> rw [h] <;> decide

theorem splitExponent_powerText : splitExponent (powerText d.power) = (readExponent d, []) := by
  unfold readExponent
  cases hp : d.power with
  | none => rfl
  | some p =>
    have hnil : ∀ b ∈ ([] : Bytes).head?, Bytes.isDigit b = false := fun b h => nomatch h
    obtain ⟨hsign, hdigits⟩ := p.split hnil
    rw [List.append_nil] at hsign hdigits
    have hletter : p.letter = 101 ∨ p.letter = 69 :=
      (toLower_eq_iff (by decide)).mp p.toLower_letter
    rw [powerText, Power.text, splitExponent, hsign]
    dsimp only
    rw [hdigits]
    dsimp only
    rw [if_pos ⟨hletter, p.ne_nil⟩]
    rfl

theorem splitFraction_pointText : splitFraction (pointText d.fraction ++ powerText d.power) =
    (d.fraction.getD [], powerText d.power) := by
  have hend := head?_powerText_decimal d
  cases hf : d.fraction with
  | none =>
    rw [pointText, List.nil_append, Option.getD_none]
    cases hp : powerText d.power with
    | nil => rfl
    | cons b rest => exact if_neg (hend b (hp ▸ rfl)).2
  | some ds =>
    have hds := (Form.IsRun.append.mp d.isRun).2
    rw [hf] at hds
    rw [pointText, List.cons_append, splitFraction, if_pos rfl]
    exact Bytes.splitDigits_append (decimal_isRun_iff.mp hds) fun b hb => (hend b hb).1

theorem splitDecimal_text : splitDecimal d.text =
    some (.decimal (Decimal.value d.digits) (readExponent d - d.places), []) := by
  have hwhole := (Form.IsRun.append.mp d.isRun).1
  have hhead : ∀ b ∈ (pointText d.fraction ++ powerText d.power).head?,
      Bytes.isDigit b = false := by
    cases hf : d.fraction with
    | none => exact fun b hb => (head?_powerText_decimal d b hb).1
    | some ds => rintro b ⟨⟩; rfl
  have hne : ¬ (d.whole = [] ∧ d.fraction.getD [] = []) := fun h =>
    d.ne_nil (by rw [h.1, h.2, List.append_nil])
  rw [Spelling.text, splitDecimal, Bytes.splitDigits_append (decimal_isRun_iff.mp hwhole) hhead]
  dsimp only
  rw [splitFraction_pointText]
  dsimp only
  rw [if_neg hne, splitExponent_powerText]
  rfl

theorem valueOf_decimal (e : ℤ) :
    d.valueOf d.digits e = Decimal.value d.digits * 10 ^ (e - d.places) := by
  have hradix : ((Form.decimal.radix : ℕ) : ℚ) = 10 := rfl
  have hbase : ((Form.decimal.base : ℕ) : ℚ) = 10 := rfl
  rw [Spelling.valueOf, hradix, hbase, decimal_run (decimal_digits d), mul_assoc,
    ← zpow_add₀ (by norm_num), neg_add_eq_sub]

theorem value_decimal : d.value = Decimal.value d.digits * 10 ^ (d.exponent - d.places) :=
  valueOf_decimal d d.exponent

/-- An exponent that is read is exact, or large like the one that is spelled. -/
theorem readExponent_cases : readExponent d = d.exponent ∨
    (2 ^ 16 ≤ readExponent d ∧ 655360 ≤ d.exponent) ∨
    (readExponent d ≤ -2 ^ 16 ∧ d.exponent ≤ -655360) := by
  unfold readExponent Spelling.exponent
  cases d.power with
  | none => exact Or.inl rfl
  | some p =>
    simp only [Option.map_some, Option.getD_some, Power.value, signedValue]
    have hbound : exponentBound = 2 ^ 16 := rfl
    obtain ⟨hmin, -⟩ := Decimal.min_le_leadingValue exponentBound p.digits
    by_cases hlt : Decimal.value p.digits < 10 * exponentBound
    · exact Or.inl (by rw [Decimal.leadingValue_eq_value hlt])
    · rw [hbound] at *
      split_ifs <;> omega

theorem zpow_ten_le : (10 : ℚ) ^ (-536 : ℤ) ≤ 2 ^ (-1076 : ℤ) := by
  have hnat : twoTo 1076 ≤ tenTo 536 :=
    (twoTo_le_twoTo (by norm_num)).trans (twoTo_three_mul_le_tenTo 536)
  have hcast : ((twoTo 1076 : ℕ) : ℚ) ≤ (tenTo 536 : ℕ) := Nat.cast_le.mpr hnat
  rw [twoTo_eq_pow, tenTo_eq_pow, Nat.cast_pow, Nat.cast_pow, Nat.cast_ofNat, Nat.cast_ofNat]
    at hcast
  rw [zpow_neg, zpow_neg, zpow_ofNat, zpow_ofNat]
  exact inv_anti₀ (by positivity) hcast

/-- **A decimal spelling is rounded to nearest**, unless its exponent is out of bounds and so many
digits can make up for it. -/
theorem isNearest_decimal (hcap : d.exponent.natAbs < 655360 ∨ d.digits.length ≤ 65000) :
    IsNearest d.value (decimalPattern (Decimal.value d.digits) (readExponent d - d.places)) := by
  have h := isNearest_decimalPattern (Decimal.value d.digits) (readExponent d - d.places)
  have hplaces := d.places_le_length_digits
  rw [value_decimal]
  rcases readExponent_cases d with hexact | ⟨hread, hlarge⟩ | ⟨hread, hsmall⟩
  · rw [hexact] at h ⊢
    exact h
  · by_cases hzero : Decimal.value d.digits = 0
    · rw [hzero, Nat.cast_zero, zero_mul] at h ⊢
      exact h
    · rw [h.unique (isNearest_large hzero (by omega))]
      exact isNearest_large hzero (by omega)
  · have hdigits : d.digits.length ≤ 65000 := hcap.resolve_left (by omega)
    have hvalue : (Decimal.value d.digits : ℚ) ≤ 10 ^ (d.digits.length : ℤ) := by
      have hlt := Form.run_lt d.isRun
      rw [show d.whole ++ d.fraction.getD [] = d.digits from rfl,
        decimal_run (decimal_digits d)] at hlt
      exact_mod_cast hlt.le
    have hlt : ∀ e : ℤ, e ≤ -2 ^ 16 →
        IsNearest (Decimal.value d.digits * 10 ^ (e - d.places)) 0 := by
      intro e he
      refine isNearest_zero_of_le ?_
      calc (Decimal.value d.digits : ℚ) * 10 ^ (e - d.places)
          ≤ 10 ^ (d.digits.length : ℤ) * 10 ^ (e - d.places) :=
            mul_le_mul_of_nonneg_right hvalue (by positivity)
        _ = 10 ^ (d.digits.length + (e - d.places) : ℤ) := (zpow_add₀ (by norm_num) _ _).symm
        _ ≤ 10 ^ (-536 : ℤ) := zpow_le_zpow_right₀ (by norm_num) (by omega)
        _ ≤ 2 ^ (-1076 : ℤ) := zpow_ten_le
    rw [h.unique (hlt _ hread)]
    exact hlt _ (by omega)

theorem exists_text_decimal : ∃ b bs, d.text = b :: bs ∧ (Bytes.isDigit b = true ∨ b = 46) := by
  have hwhole := decimal_isRun_iff.mp (Form.IsRun.append.mp d.isRun).1
  cases hw : d.whole with
  | cons b ds =>
    rw [hw] at hwhole
    exact ⟨b, _, by rw [Spelling.text, hw, List.cons_append], .inl (hwhole b List.mem_cons_self)⟩
  | nil =>
    cases hf : d.fraction with
    | none => exact absurd (by rw [hw, hf]; rfl) d.ne_nil
    | some ds =>
      refine ⟨46, ds ++ powerText d.power, ?_, .inr rfl⟩
      rw [Spelling.text, hw, hf, List.nil_append, pointText, List.cons_append]

theorem toLower_ne_of_mem_text {c : UInt8} (hc : c ∈ d.text) : Bytes.toLower c ≠ 120 := by
  have hdigit : Bytes.isDigit c = true → Bytes.toLower c ≠ 120 := by
    intro h
    rw [toLower_of_isDigit h]
    rintro rfl
    exact absurd h (by decide)
  rcases d.isPart_of_mem_text hc with h | h | h | rfl | rfl | rfl
  · exact hdigit (decimal_isRun_iff.mp (fun b hb => List.mem_singleton.mp hb ▸ h) c
      (List.mem_singleton_self c))
  · exact hdigit h
  · rw [h]; decide
  · decide
  · decide
  · decide

end Decimal

/-! ## Reading both spellings -/

theorem scanReal_hexadecimal (l : Spelling .hexadecimal) (sign : Option Bool) {x : UInt8}
    (hx : Bytes.toLower x = 120) : scanReal (signText sign ++ 48 :: x :: l.text) =
      some (.ofPattern (sign.getD false) (Hexadecimal.patternAt l.text)) := by
  rw [scanReal_signText sign (startsBare_of_isDigit (by decide) _), Hexadecimal.scan_text hx]

theorem scanReal_decimal (d : Spelling .decimal) (sign : Option Bool) :
    scanReal (signText sign ++ d.text) = some (.ofPattern (sign.getD false)
      (decimalPattern (Decimal.value d.digits) (readExponent d - d.places))) := by
  have hsplit := splitDecimal_text d
  obtain ⟨b, bs, htext, hb⟩ := exists_text_decimal d
  have hnext : ∀ c ∈ bs.head?, Bytes.toLower c ≠ 120 := fun c hc =>
    toLower_ne_of_mem_text d (htext ▸ List.mem_cons_of_mem b (List.mem_of_mem_head? hc))
  obtain ⟨hbare, hliteral⟩ : StartsBare (b :: bs) ∧
      splitLiteral (b :: bs) = splitDecimal (b :: bs) := by
    rcases hb with hb | rfl
    · exact ⟨startsBare_of_isDigit hb bs, splitLiteral_of_isDigit hb bs⟩
    · exact ⟨startsBare_cons (by decide) (by decide),
        splitLiteral_of_ne (by decide) (by decide) bs⟩
  rw [htext] at hsplit ⊢
  rw [scanReal_signText sign hbare, scan_eq_none hnext, hliteral, hsplit]
  rfl

/-! ## Decimal spellings of dyadic numbers -/

/-- An exponent with the shortest digits. -/
def Power.ofNat {mark : UInt8} (h : Bytes.toLower mark = mark) (sign : Option Bool) (n : ℕ) :
    Power mark :=
  ⟨mark, sign, Decimal.digits n, h, Bytes.allDigits_digits n, Decimal.digits_ne_nil n⟩

theorem Power.value_ofNat {mark : UInt8} (h : Bytes.toLower mark = mark) (sign : Option Bool)
    (n : ℕ) : (Power.ofNat h sign n).value = signedValue sign n := by
  rw [Power.value, Power.ofNat, Decimal.value_digits]

/-- A decimal spelling of `m / 2 ^ k`: the digits of `m * 5 ^ k` and the exponent `-k`. -/
def dyadic (m k : ℕ) : Spelling .decimal where
  whole := Decimal.digits (m * 5 ^ k)
  fraction := none
  power := some (.ofNat rfl (some true) k)
  isRun := decimal_isRun_iff.mpr (by simpa using Bytes.allDigits_digits _)
  ne_nil := by simpa using Decimal.digits_ne_nil _

section Dyadic

variable (m k : ℕ)

theorem value_digits_dyadic : Decimal.value (dyadic m k).digits = m * 5 ^ k := by
  rw [Spelling.digits, dyadic, Option.getD_none, List.append_nil, Decimal.value_digits]

theorem exponent_dyadic : (dyadic m k).exponent = -k := Power.value_ofNat rfl (some true) k

theorem value_dyadic : (dyadic m k).value = m * 2 ^ (-(k : ℤ)) := by
  have hten : (10 : ℚ) ^ (-(k : ℤ)) = 2 ^ (-(k : ℤ)) * 5 ^ (-(k : ℤ)) := by
    rw [← mul_zpow]
    norm_num
  have hfive : (5 : ℚ) ^ k * 5 ^ (-(k : ℤ)) = 1 := by
    rw [zpow_neg, zpow_natCast, mul_inv_cancel₀ (by positivity)]
  rw [value_decimal, value_digits_dyadic, exponent_dyadic, show (dyadic m k).places = 0 from rfl,
    Nat.cast_zero, sub_zero, hten, Nat.cast_mul, Nat.cast_pow, Nat.cast_ofNat, mul_mul_mul_comm,
    hfive, mul_one]

theorem scanReal_dyadic (hk : k < 655360) (sign : Option Bool) :
    scanReal (signText sign ++ (dyadic m k).text) =
      some (.ofPattern (sign.getD false) (decimalPattern (m * 5 ^ k) (-k))) := by
  have hread : readExponent (dyadic m k) = -k := by
    rcases readExponent_cases (dyadic m k) with h | ⟨-, h⟩ | ⟨-, h⟩ <;>
      rw [exponent_dyadic] at h <;> omega
  rw [scanReal_decimal, value_digits_dyadic, hread, show (dyadic m k).places = 0 from rfl,
    Nat.cast_zero, sub_zero]

end Dyadic

/-! ## Spellings that are read apart -/

/-- Two spellings of one number of which one is read as the bits `a` and the other one as `b`. -/
def ReadApart (l : Spelling .hexadecimal) (d : Spelling .decimal) (a b : UInt64) : Prop :=
  l.value = d.value ∧ scanReal (48 :: 120 :: l.text) = some ⟨a⟩ ∧ scanReal d.text = some ⟨b⟩

/-- Seventeen digits, of which the last one decides a tie. -/
def overlong : Spelling .hexadecimal where
  whole := [49]
  fraction := some (Bytes.ofAscii "0000000000000801".toList)
  power := none
  isRun := by decide +kernel
  ne_nil := by decide

theorem value_overlong : overlong.value = (2 ^ 64 + 2 ^ 11 + 1) * 2 ^ (-64 : ℤ) ∧
    overlong.valueOf (Hexadecimal.cut overlong.digits) 0 = (2 ^ 53 + 1) * 2 ^ (-53 : ℤ) := by
  have hrun : Form.hexadecimal.run overlong.digits = 0x10000000000000801 := by decide +kernel
  have hcut : Form.hexadecimal.run (Hexadecimal.cut overlong.digits) = 0x10000000000000800 := by
    decide +kernel
  rw [Spelling.value, Hexadecimal.valueOf_eq overlong _ 0, Hexadecimal.valueOf_eq overlong _ 0,
    hrun, hcut, show overlong.places = 16 from rfl, show overlong.exponent = 0 from rfl]
  norm_num

theorem readApart_overlong : ReadApart overlong (dyadic (2 ^ 64 + 2 ^ 11 + 1) 64)
    0x3ff0000000000000 0x3ff0000000000001 := by
  refine ⟨?_, by decide +kernel, ?_⟩
  · rw [value_overlong.1, value_dyadic]
    norm_num
  · exact (scanReal_dyadic _ _ (by norm_num) none).trans (by decide +kernel)

/-- Fifteen digits, rounded to a tie before they are scaled below the normal numbers. -/
def subnormal : Spelling .hexadecimal where
  whole := [49]
  fraction := some (Bytes.ofAscii "00000000000011".toList)
  power := some (.ofNat rfl (some true) 1023)
  isRun := by decide +kernel
  ne_nil := by decide

theorem readApart_subnormal : ReadApart subnormal (dyadic 0x100000000000011 1079)
    0x0008000000000000 0x0008000000000001 := by
  have hrun : Form.hexadecimal.run subnormal.digits = 0x100000000000011 := by decide +kernel
  have hexponent : subnormal.exponent = -1023 := Power.value_ofNat rfl (some true) 1023
  refine ⟨?_, by decide +kernel, ?_⟩
  · rw [Spelling.value, Hexadecimal.valueOf_eq subnormal _ 0, hrun, hexponent,
      show subnormal.places = 14 from rfl, value_dyadic]
    norm_num
  · exact (scanReal_dyadic _ _ (by norm_num) none).trans (by decide +kernel)

section Faint

variable {f : Form} (hone : f.digit? 49 = some 1) (hmark : Bytes.toLower f.mark = f.mark) (n e : ℕ)

/-- The digit one behind `n` zeros and a point, with the exponent `e`. -/
def faint : Spelling f where
  whole := [48]
  fraction := some (List.replicate n 48 ++ [49])
  power := some (.ofNat hmark none e)
  isRun := by
    intro b hb
    simp only [Option.getD_some, List.mem_append, List.mem_singleton, List.mem_replicate] at hb
    rcases hb with rfl | ⟨-, rfl⟩ | rfl
    · rw [f.digit?_zero]; rfl
    · rw [f.digit?_zero]; rfl
    · rw [hone]; rfl
  ne_nil := List.cons_ne_nil _ _

theorem exponent_faint : (faint hone hmark n e).exponent = e := Power.value_ofNat hmark none e

theorem places_faint : (faint hone hmark n e).places = n + 1 := by
  rw [Spelling.places, faint, Option.getD_some, List.length_append, List.length_replicate,
    List.length_singleton]

theorem dropWhile_faint : (faint hone hmark n e).digits.dropWhile (· == 48) = [49] := by
  rw [Spelling.digits, faint, Option.getD_some, List.singleton_append,
    List.dropWhile_cons_of_pos rfl, List.dropWhile_append_of_pos (by simp)]
  rfl

theorem run_faint : f.run (faint hone hmark n e).digits = 1 := by
  rw [← Form.run_dropWhile, dropWhile_faint, Form.run_singleton, Form.digit, hone, Option.getD_some]

end Faint

/-- One, with an exponent that is cut while the zeros behind the point make up for it. -/
def cappedHexadecimal : Spelling .hexadecimal := faint rfl rfl 262400 1049604

theorem valueOf_cappedHexadecimal (e : ℤ) :
    cappedHexadecimal.valueOf cappedHexadecimal.digits e = 2 ^ (e - 1049604) := by
  have hrun : Form.hexadecimal.run cappedHexadecimal.digits = 1 := run_faint rfl rfl 262400 1049604
  have hplaces : cappedHexadecimal.places = 262401 := places_faint rfl rfl 262400 1049604
  have hexponent : 4 * (((0 : ℕ) : ℤ) - (262401 : ℕ)) + e = e - 1049604 := by
    push_cast
    ring
  rw [Hexadecimal.valueOf_eq _ _ 0, hrun, hplaces, Nat.cast_one, pow_zero, div_one, one_mul,
    hexponent]

theorem patternAt_cappedHexadecimal :
    Hexadecimal.patternAt cappedHexadecimal.text = 0x0000400000000000 := by
  have hexponent : cappedHexadecimal.exponent = 1049604 := exponent_faint rfl rfl 262400 1049604
  have hclamp : Hexadecimal.clampExponent Hexadecimal.maxExponent 1049604 = 1048576 := by decide
  have hzeros : ∀ b ∈ (cappedHexadecimal.digits.dropWhile (· == 48)).drop 16, b = 48 := by
    rw [show cappedHexadecimal.digits.dropWhile (· == 48) = [49] from
      dropWhile_faint rfl rfl 262400 1049604]
    exact nofun
  have hread : cappedHexadecimal.valueOf (Hexadecimal.cut cappedHexadecimal.digits) 1048576 =
      value 0x0000400000000000 := by
    have hvalue := value_significand (s := 0) (m := 2 ^ 46) (by norm_num) (Or.inl rfl)
    rw [place_eq_zpow] at hvalue
    rw [Hexadecimal.valueOf_cut hzeros, valueOf_cappedHexadecimal]
    refine Eq.trans ?_ hvalue.symm
    rw [Nat.cast_pow, Nat.cast_ofNat, ← zpow_natCast, ← zpow_add₀ two_ne_zero]
    norm_num
  have h := Hexadecimal.isNearest_patternAt cappedHexadecimal cappedHexadecimal.endsBefore_nil
    (e := 1048576) (Or.inl (by rw [hexponent, hclamp])) (Or.inr ⟨1, by norm_num, -1028, ?_⟩)
  · rw [hread, List.append_nil] at h
    exact h.unique (isNearest_value (by decide))
  · rw [Hexadecimal.valueOf_cut hzeros, valueOf_cappedHexadecimal]
    norm_num

theorem readApart_cappedHexadecimal : ReadApart cappedHexadecimal (dyadic 1 0)
    0x0000400000000000 0x3ff0000000000000 := by
  have hexponent : cappedHexadecimal.exponent = 1049604 := exponent_faint rfl rfl 262400 1049604
  refine ⟨?_, ?_, ?_⟩
  · rw [Spelling.value, valueOf_cappedHexadecimal, hexponent, value_dyadic]
    norm_num
  · refine (scanReal_hexadecimal cappedHexadecimal none (x := 120) (by decide)).trans ?_
    rw [patternAt_cappedHexadecimal]
    rfl
  · exact (scanReal_dyadic _ _ (by norm_num) none).trans (by decide +kernel)

/-- One, with an exponent of which the last digit is not read. -/
def cappedDecimal : Spelling .decimal := faint rfl rfl 655359 655360

/-- One. -/
def unit : Spelling .hexadecimal := ⟨[49], none, none, by decide +kernel, by decide⟩

theorem digits_cappedDecimal : Decimal.value cappedDecimal.digits = 1 :=
  (decimal_run (decimal_digits _)).symm.trans (run_faint rfl rfl 655359 655360)

theorem places_cappedDecimal : cappedDecimal.places = 655360 := places_faint rfl rfl 655359 655360

theorem value_cappedDecimal : cappedDecimal.value = 1 := by
  have hexponent : cappedDecimal.exponent = 655360 := exponent_faint rfl rfl 655359 655360
  rw [value_decimal, digits_cappedDecimal, places_cappedDecimal, hexponent]
  norm_num

theorem readApart_cappedDecimal : ReadApart unit cappedDecimal 0x3ff0000000000000 0 := by
  have hread : readExponent cappedDecimal = 65536 := by
    change signedValue none (Decimal.leadingValue exponentBound (Decimal.digits 655360)) = 65536
    decide +kernel
  refine ⟨?_, by decide +kernel, ?_⟩
  · rw [value_cappedDecimal, Spelling.value, Hexadecimal.valueOf_eq unit _ 0,
      show Form.hexadecimal.run unit.digits = 1 from rfl, show unit.places = 0 from rfl,
      show unit.exponent = 0 from rfl]
    norm_num
  · refine (scanReal_decimal cappedDecimal none).trans ?_
    rw [digits_cappedDecimal, hread, places_cappedDecimal]
    decide +kernel

/-- **Not all spellings of a number give the same bits**: a dropped digit decides a tie, a number is
rounded twice, or an exponent is cut. -/
theorem scanReal_disagree :
    ReadApart overlong (dyadic (2 ^ 64 + 2 ^ 11 + 1) 64) 0x3ff0000000000000 0x3ff0000000000001 ∧
      ReadApart subnormal (dyadic 0x100000000000011 1079) 0x0008000000000000 0x0008000000000001 ∧
      ReadApart cappedHexadecimal (dyadic 1 0) 0x0000400000000000 0x3ff0000000000000 ∧
      ReadApart unit cappedDecimal 0x3ff0000000000000 0 :=
  ⟨readApart_overlong, readApart_subnormal, readApart_cappedHexadecimal, readApart_cappedDecimal⟩

/-! ## Agreement -/

theorem ofPattern_inj {negative : Bool} {p q : ℕ} (hp : p ≤ infinity) (hq : q ≤ infinity)
    (h : Binary64.ofPattern negative p = .ofPattern negative q) : p = q := by
  have hlt : infinity < 2 ^ 63 := by decide +kernel
  rw [← (Binary64.pattern_ofPattern negative (hp.trans_lt hlt)).1, h,
    (Binary64.pattern_ofPattern negative (hq.trans_lt hlt)).1]

/-- **Both spellings of a number give the same bits**: those of the nearest pattern, a tie going to
the even one. The digits after the first sixteen significant ones of the hexadecimal spelling count
as zeros, and its exponent is cut at its bound where that can be felt. The one exception is a number
that becomes a tie when it is rounded to the bits of a pattern, and goes to the other side then. It
is not normal and has more bits. -/
theorem scanReal_agree (l : Spelling .hexadecimal) (d : Spelling .decimal)
    (sign sign' : Option Bool) (hsign : sign'.getD false = sign.getD false)
    {e : ℤ} (he : Hexadecimal.IsExponent l e)
    (hvalue : d.value = l.valueOf (Hexadecimal.cut l.digits) e)
    (hd : d.exponent.natAbs < 655360 ∨ d.digits.length ≤ 65000) {x : UInt8}
    (hx : Bytes.toLower x = 120) : ∃ r, IsNearest d.value r ∧
      scanReal (signText sign' ++ d.text) = some (.ofPattern (sign.getD false) r) ∧
      (scanReal (signText sign ++ 48 :: x :: l.text) = some (.ofPattern (sign.getD false) r) ↔
        ¬ TiesApart d.value) ∧
      (2 ^ (-1022 : ℤ) ≤ d.value ∨ (∃ m : ℕ, m ≤ 2 ^ 53 ∧ ∃ j : ℤ, d.value = m * 2 ^ j) →
        scanReal (signText sign ++ 48 :: x :: l.text) =
          some (.ofPattern (sign.getD false) r)) := by
  have hdecimal := isNearest_decimal d hd
  have hadjacent := Hexadecimal.isAdjacent_patternAt l l.endsBefore_nil he
  have hnearest := Hexadecimal.isNearest_patternAt_iff l l.endsBefore_nil he
  rw [List.append_nil] at hadjacent hnearest
  rw [← hvalue] at hnearest
  have hties : scanReal (signText sign ++ 48 :: x :: l.text) =
      some (.ofPattern (sign.getD false) (decimalPattern (Decimal.value d.digits)
        (readExponent d - d.places))) ↔ ¬ TiesApart d.value := by
    rw [scanReal_hexadecimal l sign hx, ← hnearest]
    refine ⟨fun h => ?_, fun h => by rw [h.unique hdecimal]⟩
    rw [ofPattern_inj hadjacent.1 hdecimal.1 (Option.some.inj h)]
    exact hdecimal
  refine ⟨_, hdecimal, ?_, hties, fun hbits => hties.mpr ?_⟩
  · rw [scanReal_decimal d sign', hsign]
  · exact hbits.elim not_tiesApart_of_normal not_tiesApart_of_isSignificand

/-- Fifteen digits, more than a pattern has bits for, that are not rounded to a tie. -/
def untied : Spelling .hexadecimal where
  whole := [49]
  fraction := some (Bytes.ofAscii "0000000000001f".toList)
  power := some (.ofNat rfl (some true) 1023)
  isRun := by decide +kernel
  ne_nil := by decide

theorem value_untied : untied.value = (dyadic 0x10000000000001f 1079).value := by
  have hrun : Form.hexadecimal.run untied.digits = 0x10000000000001f := by decide +kernel
  have hexponent : untied.exponent = -1023 := Power.value_ofNat rfl (some true) 1023
  rw [Spelling.value, Hexadecimal.valueOf_eq untied _ 0, hrun, hexponent,
    show untied.places = 14 from rfl, value_dyadic]
  norm_num

/-- With a minus sign, a capital letter and a dropped digit; and two numbers with more bits than a
pattern that are not normal, of which one becomes a tie. -/
theorem scanReal_agree_overlong :
    (∃ r, IsNearest ((2 ^ 53 + 1) * 2 ^ (-53 : ℤ)) r ∧
      scanReal (45 :: 48 :: 88 :: overlong.text) = some (.ofPattern true r) ∧
      scanReal (45 :: (dyadic (2 ^ 53 + 1) 53).text) = some (.ofPattern true r)) ∧
    TiesApart (0x100000000000011 * 2 ^ (-1079 : ℤ)) ∧
      ¬ TiesApart (0x10000000000001f * 2 ^ (-1079 : ℤ)) := by
  refine ⟨?_, ?_⟩
  · have hvalue : (dyadic (2 ^ 53 + 1) 53).value = (2 ^ 53 + 1) * 2 ^ (-53 : ℤ) := by
      rw [value_dyadic]
      norm_num
    have hnormal : (2 : ℚ) ^ (-1022 : ℤ) ≤ (2 ^ 53 + 1) * 2 ^ (-53 : ℤ) := by
      have hle : (2 : ℚ) ^ (-1022 : ℤ) ≤ 1 := zpow_le_one_of_nonpos₀ one_le_two (by norm_num)
      exact hle.trans (by norm_num)
    have hexponent := exponent_dyadic (2 ^ 53 + 1) 53
    obtain ⟨r, hr, hdecimal, -, hhex⟩ := scanReal_agree overlong (dyadic (2 ^ 53 + 1) 53)
      (some true) (some true) rfl (Or.inl rfl) (hvalue.trans value_overlong.2.symm)
      (Or.inl (by rw [hexponent]; decide)) (x := 88) (by decide)
    rw [hvalue] at hr hhex
    exact ⟨r, hr, hhex (Or.inl hnormal), hdecimal⟩
  · -- a number below the normal ones is a wrong tie where the two spellings are read apart
    have hties : ∀ (l : Spelling .hexadecimal) (m : ℕ) (a b : UInt64),
        ReadApart l (dyadic m 1079) a b → l.digits.length ≤ 16 →
        (a = b ↔ ¬ TiesApart (m * 2 ^ (-1079 : ℤ))) := by
      rintro l m a b ⟨hvalue, hhex, hdecimal⟩ hlength
      have hzeros : ∀ c ∈ (l.digits.dropWhile (· == 48)).drop 16, c = 48 := by
        have hle := List.length_dropWhile_le (· == 48) l.digits
        rw [List.drop_eq_nil_of_le (by omega)]
        exact fun c hc => absurd hc List.not_mem_nil
      obtain ⟨r, -, hread, hiff, -⟩ := scanReal_agree l (dyadic m 1079) none none rfl
        (Or.inr ⟨rfl, by omega⟩) (hvalue.symm.trans (Hexadecimal.valueOf_cut hzeros _).symm)
        (Or.inl (by rw [exponent_dyadic]; decide)) (x := 120) (by decide)
      rw [signText, List.nil_append, hdecimal] at hread
      rwa [signText, List.nil_append, hhex, ← hread, value_dyadic, Option.some.injEq,
        Binary64.mk.injEq] at hiff
    have htied := hties subnormal 0x100000000000011 _ _ readApart_subnormal (by decide)
    have huntied := hties untied 0x10000000000001f 0x0008000000000001 0x0008000000000001
      ⟨value_untied, by decide +kernel,
        (scanReal_dyadic _ _ (by norm_num) none).trans (by decide +kernel)⟩ (by decide)
    rw [Nat.cast_ofNat] at htied huntied
    exact ⟨not_not.mp (htied.not.mp (by decide)), huntied.mp rfl⟩

end AdaSupport.Numeral
