import AdaSupport.Proofs.LongestLiteral
import AdaSupport.Proofs.Truncation

/-!
# Integers as reals and as text

An integer becomes a real and text, the real becomes an integer and text, and the text becomes an
integer and a real. All ways from one of them to another agree.

* `value_nearest_natCast`, `ofPattern_nearest_natCast`: a whole number below `2 ^ 53` is a pattern,
  and its text has just the digits of the number.
* `toInteger_ofInteger`, `ofReal_ofInteger`: an integer as a real, and back or on to text.
* `IsReal`: the text of a real, in decimal or hexadecimal.
* `EndsRealAfter t tail`: text that does not go on the real `t` in front of it.
* `patternAt_eq_zero`: without a digit behind it, a hexadecimal mark is read as zero.
* **`scanReal_ofInteger`**: the text of an integer is read as the same real.
* **`conversions_commute`**: all ways agree.
-/

namespace AdaSupport

/-! ## Whole numbers -/

namespace Pattern

section

variable {n : ℕ} (hn : n < 2 ^ 53)
include hn

theorem value_nearest_natCast : nearest (n * unitsPerOne) 1 < infinity ∧
    value (nearest (n * unitsPerOne) 1) = n := by
  obtain ⟨p, hp⟩ := exists_value_natCast hn.le
  have hlt : p < infinity := by
    refine lt_infinity_of_value_le (hp ▸ ?_)
    exact_mod_cast hn.le.trans (by norm_num)
  rw [nearest_of_units Nat.one_pos hlt.le (by rw [value_eq_natCast_iff.mp hp, mul_one])]
  exact ⟨hlt, hp⟩

theorem wholePart_nearest_natCast : wholePart (nearest (n * unitsPerOne) 1) = n := by
  rw [wholePart, value_eq_natCast_iff.mp (value_nearest_natCast hn).2,
    Nat.mul_div_cancel _ unitsPerOne_pos]

end

end Pattern

theorem Decimal.digits_mul_pow {c : ℕ} (hc : 0 < c) (j : ℕ) :
    digits (c * 10 ^ j) = digits c ++ List.replicate j 48 := by
  induction j with
  | zero => rw [pow_zero, mul_one, List.replicate_zero, List.append_nil]
  | succ j ih =>
    have hpos : 0 < c * 10 ^ j := Nat.mul_pos hc (Nat.pow_pos (by decide))
    rw [pow_succ, ← mul_assoc, digits, if_neg (by omega), Nat.mul_div_cancel _ (by decide),
      Nat.mul_mod_left, ih, List.append_assoc, List.replicate_succ']
    rfl

namespace Numeral

open Pattern Decimal

/-- The text of a whole number is its digits. -/
theorem ofPattern_nearest_natCast {n : ℕ} (hn : n < 2 ^ 53) :
    ofPattern (nearest (n * unitsPerOne) 1) = digits n := by
  obtain ⟨hp, hvalue⟩ := value_nearest_natCast hn
  have hwhole := wholePart_nearest_natCast hn
  generalize nearest (n * unitsPerOne) 1 = p at *
  rcases Nat.eq_zero_or_pos p with rfl | h0
  · rw [← hwhole, wholePart_zero, digits]
    rfl
  obtain ⟨j, hj, hnumber⟩ :=
    exists_digits_mul_pow h0 hp (hwhole ▸ hn) (by rw [hvalue, hwhole])
  have hpoint : pointOf p = (digitsOf p).length +
      ((significant (shortest p).digits).2 + j : ℕ) := by
    rw [pointOf, hj]; push_cast; ring
  have hsixteen : pointOf p ≤ 16 := by
    refine pointOf_le_sixteen h0 hp ?_
    rw [hvalue]
    exact_mod_cast hn.trans (by norm_num)
  rw [ofPattern_eq_layout h0, layout, if_pos (by omega), hpoint, add_sub_cancel_left]
  dsimp only
  -- the significant digits, the zeros that were taken off, and the zeros of the exponent
  rw [Int.toNat_natCast, ← hwhole, ← hnumber, digits_mul_pow (shortest_digits_pos h0 hp),
    ← significant_append, List.replicate_add, List.append_assoc]
  rfl

end Numeral

/-! ## Integers as reals -/

namespace Binary64

theorem natAbs_toInt_lt (v : Int32) : v.toInt.natAbs < 2 ^ 53 := by
  have hlow := v.le_toInt
  have hhigh := v.toInt_lt
  omega

theorem pattern_ofInteger (v : Int32) :
    (ofInteger v).pattern = Pattern.nearest (v.toInt.natAbs * Pattern.unitsPerOne) 1 ∧
      (ofInteger v).negative = decide (v < 0) := by
  have hp := (Pattern.value_nearest_natCast (natAbs_toInt_lt v)).1
  exact pattern_ofPattern _ (hp.trans (by decide +kernel))

theorem isFinite_ofInteger (v : Int32) : (ofInteger v).isFinite = true := by
  rw [isFinite, (pattern_ofInteger v).1]
  exact decide_eq_true (Pattern.value_nearest_natCast (natAbs_toInt_lt v)).1

/-- An integer that became a real is the same integer again. -/
theorem toInteger_ofInteger (v : Int32) : (ofInteger v).toInteger = v := by
  obtain ⟨hpattern, hnegative⟩ := pattern_ofInteger v
  rw [toInteger_of_isFinite (isFinite_ofInteger v), truncated_value, hpattern, hnegative,
    Pattern.wholePart_nearest_natCast (natAbs_toInt_lt v), Numeral.signed_natAbs,
    Numeral.clampInteger_toInt]

end Binary64

namespace Numeral

open Pattern Decimal

/-- An integer has the same text as the real it becomes. -/
theorem ofReal_ofInteger (v : Int32) : ofReal (Binary64.ofInteger v) = ofInteger v := by
  obtain ⟨hpattern, hnegative⟩ := Binary64.pattern_ofInteger v
  have hfinite := Binary64.isFinite_ofInteger v
  rw [ofReal_eq_signed (Binary64.isNaN_of_isFinite hfinite), if_pos hfinite, hpattern, hnegative,
    ofPattern_nearest_natCast (Binary64.natAbs_toInt_lt v), ofInteger_eq_signed]

/-! ## Integers read as reals -/

/-- The text of a real: a word, a decimal number, or a hexadecimal one with a digit behind its
mark. -/
inductive IsReal : Bytes → Prop
  | written (w : Written) : IsReal w.text
  | hexadecimal (sign : Option Bool) (x : UInt8) (hx : Bytes.toLower x = 120)
      (l : Spelling .hexadecimal) : IsReal (signText sign ++ 48 :: x :: l.text)

/-- No longer real stands in front of the text `t` that goes on with `tail`. -/
def EndsRealAfter (t tail : Bytes) : Prop :=
  ∀ s, IsReal s → s <+: t ++ tail → s.length ≤ t.length

/-- Without a digit behind it, a hexadecimal mark is read as zero. -/
theorem Hexadecimal.patternAt_eq_zero {bs : Bytes}
    (h : ∀ l : Spelling .hexadecimal, ¬ l.text <+: bs) : patternAt bs = 0 := by
  have hrun : ∀ {b : UInt8}, Bytes.hexValue? b ≠ none → Form.hexadecimal.IsRun [b] := by
    intro b hb c hc
    rw [List.mem_singleton.mp hc]
    exact Option.ne_none_iff_isSome.mp hb
  have hkept : (splitSignificand .empty bs).1.kept = 0 := by
    cases bs with
    | nil => rfl
    | cons b bs =>
      by_cases hpoint : b = 46
      · subst hpoint
        have hhead : ∀ c ∈ bs.head?, Bytes.hexValue? c = none := by
          intro c hc
          by_contra hdigit
          refine h ⟨[], some [c], none, hrun hdigit, List.cons_ne_nil _ _⟩ ?_
          exact (List.prefix_append_right_inj [46]).mpr (Spelling.singleton_prefix_of_mem_head? hc)
        rw [splitSignificand, if_pos ⟨rfl, rfl⟩, splitSignificand_of_head? _ fun c hc =>
          ⟨hhead c hc, fun hpast => absurd hpast (by decide)⟩]
        rfl
      · have hhead : Bytes.hexValue? b = none := by
          by_contra hdigit
          exact h ⟨[b], none, none, hrun hdigit, List.cons_ne_nil _ _⟩ ⟨bs, rfl⟩
        rw [splitSignificand_of_head? _ fun c hc => ?_]
        · rfl
        · cases hc
          exact ⟨hhead, fun _ => hpoint⟩
  rw [patternAt]
  exact if_pos hkept

/-- The digits of a number as a spelling. -/
def plain (n : ℕ) : Spelling .decimal where
  whole := digits n
  fraction := none
  power := none
  isRun := by
    rw [Option.getD_none, List.append_nil]
    exact decimal_isRun_iff.mpr (Bytes.allDigits_digits n)
  ne_nil := by
    rw [Option.getD_none, List.append_nil]
    exact digits_ne_nil n

theorem text_plain (n : ℕ) : (plain n).text = digits n := List.append_nil _

theorem pattern_plain (n : ℕ) : (Magnitude.decimal (plain n)).literal.pattern =
    nearest (n * unitsPerOne) 1 := by
  have hdigits : (plain n).digits = digits n := List.append_nil _
  have hread := isNearest_decimalPattern (Decimal.value (plain n).digits) 0
  rw [hdigits, value_digits, zpow_zero, mul_one] at hread
  rw [← hread.unique (isNearest_natCast n)]
  change decimalPattern (Decimal.value (plain n).digits) 0 = _
  rw [hdigits, value_digits]

/-- The digits of a number are a hexadecimal literal with what follows only if they are a zero. -/
theorem eq_zero_of_scan {n : ℕ} {tail : Bytes} {p : Pattern}
    (h : Hexadecimal.scan (digits n ++ tail) = some p) : n = 0 ∧ digits n = [48] ∧
      ∃ (x : UInt8) (rest : Bytes), Bytes.toLower x = 120 ∧ tail = x :: rest ∧
        p = Hexadecimal.patternAt rest := by
  obtain ⟨x, rest, hx, htext, hp⟩ := Hexadecimal.exists_of_scan h
  have hdigits := Bytes.allDigits_digits n
  have hvalue := value_digits n
  match hds : digits n with
  | [] => exact absurd hds (digits_ne_nil n)
  | [b] =>
    rw [hds] at htext hvalue
    cases htext
    exact ⟨hvalue.symm, rfl, x, rest, hx, rfl, hp⟩
  | b :: c :: ds =>
    -- a second digit is no letter
    rw [hds] at htext hdigits
    cases htext
    have hc : Bytes.isDigit x = true := hdigits x (by simp)
    rw [toLower_of_isDigit hc] at hx
    rw [hx] at hc
    exact absurd hc (by decide)

section Ends

variable {sign : Option Bool} {tail : Bytes}

theorem EndsRealAfter.endsBefore {m : Magnitude}
    (h : EndsRealAfter (signText sign ++ m.text) tail) : m.EndsBefore tail := by
  intro m' hm'
  have hle := h _ (.written ⟨sign, m'⟩)
    (by rw [List.append_assoc]; exact (List.prefix_append_right_inj _).mpr hm')
  rw [Written.text, List.length_append, List.length_append] at hle
  exact Nat.le_of_add_le_add_left hle

theorem EndsRealAfter.patternAt_eq_zero {x : UInt8} (hx : Bytes.toLower x = 120)
    (h : EndsRealAfter (signText sign ++ [48]) (x :: tail)) : Hexadecimal.patternAt tail = 0 := by
  refine Hexadecimal.patternAt_eq_zero fun l hl => ?_
  have hle := h _ (.hexadecimal sign x hx l) (by
    rw [List.append_assoc]
    exact (List.prefix_append_right_inj _).mpr ((List.prefix_append_right_inj [48, x]).mpr hl))
  rw [List.length_append, List.length_append, List.length_cons, List.length_cons,
    List.length_singleton] at hle
  omega

/-- What is split off as a literal, with no mark of a hexadecimal one in front, is the longest
real. -/
theorem endsRealAfter_of_splitLiteral {m : Magnitude} {l : Literal}
    (hsplit : splitLiteral (m.text ++ tail) = some (l, tail))
    (hscan : Hexadecimal.scan (m.text ++ tail) = none) :
    EndsRealAfter (signText sign ++ m.text) tail := by
  have hbody : sign = none → StartsBare (m.text ++ tail) := fun _ => startsBare_text m tail
  rintro s (w | ⟨sign', x, hx, l'⟩) hs
  · rw [List.append_assoc] at hs
    exact (isLongestIn_of_splitLiteral hbody hsplit rfl).2 w hs
  · obtain ⟨rest, hrest⟩ := hs
    rw [List.append_assoc, List.append_assoc] at hrest
    have hmark : sign' = none → StartsBare (48 :: x :: (l'.text ++ rest)) := fun _ =>
      startsBare_of_isDigit (by decide) _
    obtain ⟨-, heq⟩ := signText_append_inj hmark hbody hrest
    rw [← heq, Hexadecimal.scan_text hx] at hscan
    cases hscan

end Ends

/-- **The text of an integer is read as the same real**, behind any blanks and in front of anything
that does not go on the number. -/
theorem scanReal_ofInteger (v : Int32) {blanks tail : Bytes} (hblanks : blanks.AllBlank)
    (ht : EndsRealAfter (ofInteger v) tail) :
    scanReal (blanks ++ (ofInteger v ++ tail)) = some (Binary64.ofInteger v) := by
  obtain ⟨sign, hsign⟩ : ∃ sign, sign = if decide (v < 0) then some true else none := ⟨_, rfl⟩
  have hnegative : sign.getD false = decide (v < 0) := by
    rw [hsign]
    cases decide (v < 0) <;> rfl
  rw [ofInteger_eq_signed, signed_eq_signText, ← hsign] at ht ⊢
  have hbody : sign = none → StartsBare (digits v.toInt.natAbs ++ tail) := fun _ =>
    startsBare_of_allDigits (Bytes.allDigits_digits _) (digits_ne_nil _) tail
  rw [List.append_assoc, scanReal_append hblanks hbody, Binary64.ofInteger, hnegative]
  cases hscan : Hexadecimal.scan (digits v.toInt.natAbs ++ tail) with
  | none =>
    -- the digits are the longest literal
    rw [← text_plain] at ht ⊢
    have hsplit := splitLiteral_of_endsBefore (m := .decimal (plain v.toInt.natAbs)) ht.endsBefore
    rw [Magnitude.text] at hsplit
    rw [hsplit, Option.map_some, pattern_plain]
  | some p =>
    -- the mark of a hexadecimal literal behind a zero, and no digit behind the mark
    obtain ⟨hzero, hdigits, x, rest, hx, rfl, rfl⟩ := eq_zero_of_scan hscan
    rw [hdigits] at ht
    have hnearest : nearest (0 * unitsPerOne) 1 = 0 :=
      nearest_of_units Nat.one_pos (Nat.zero_le _) (Nat.zero_mul _).symm
    rw [ht.patternAt_eq_zero hx, hzero, hnearest]

theorem endsRealAfter_nil (t : Bytes) : EndsRealAfter t [] := fun s _ hs => by
  rw [List.append_nil] at hs
  exact hs.length_le

/-- **The conversions of integers commute.** An integer is the same again after it became text or a
real, it has the text of that real, and its text is read as that real, bit for bit. Blanks in front
of the text make no difference, and neither does text behind it that does not go on the number. -/
theorem conversions_commute (v : Int32) :
    toInteger (some (ofInteger v)) = v ∧ (Binary64.ofInteger v).toInteger = v ∧
      ofReal (Binary64.ofInteger v) = ofInteger v ∧
      scanReal (ofInteger v) = some (Binary64.ofInteger v) ∧
      ∀ blanks tail : Bytes, blanks.AllBlank →
        (EndsInteger tail → toInteger (some (blanks ++ (ofInteger v ++ tail))) = v) ∧
        (EndsRealAfter (ofInteger v) tail →
          scanReal (blanks ++ (ofInteger v ++ tail)) = some (Binary64.ofInteger v)) := by
  have hinteger : ∀ blanks tail : Bytes, blanks.AllBlank → EndsInteger tail →
      toInteger (some (blanks ++ (ofInteger v ++ tail))) = v := fun blanks tail hblanks ht => by
    rw [toInteger, Option.bind_some, scanInteger_ofInteger v hblanks ht, Option.getD_some]
  have hread := hinteger [] [] Bytes.allBlank_nil fun b h => nomatch h
  have hreal := scanReal_ofInteger v Bytes.allBlank_nil (endsRealAfter_nil _)
  rw [List.nil_append, List.append_nil] at hread hreal
  exact ⟨hread, Binary64.toInteger_ofInteger v, ofReal_ofInteger v, hreal,
    fun blanks tail hblanks => ⟨hinteger blanks tail hblanks, scanReal_ofInteger v hblanks⟩⟩

/-- The lowest integer, behind blanks and in front of what looks like a fraction or an exponent. -/
theorem conversions_commute_at_lowest :
    Bytes.AllBlank [32, 9] ∧ EndsInteger [46, 53] ∧
      EndsRealAfter (ofInteger (-2147483648)) [101, 43] ∧
      toInteger (some (Bytes.ofAscii " \t-2147483648.5".toList)) = -2147483648 ∧
      scanReal (Bytes.ofAscii " \t-2147483648e+".toList) =
        some (Binary64.ofInteger (-2147483648)) := by
  have hblanks : Bytes.AllBlank [32, 9] := by decide
  have hinteger : EndsInteger [46, 53] := by
    rintro b ⟨⟩
    decide
  have htext : ofInteger (-2147483648) = Bytes.ofAscii "-2147483648".toList := by decide +kernel
  have hreal : EndsRealAfter (ofInteger (-2147483648)) [101, 43] := by
    have hdigits : (plain 2147483648).text = Bytes.ofAscii "2147483648".toList := by decide +kernel
    have h : EndsRealAfter
        (signText (some true) ++ (Magnitude.decimal (plain 2147483648)).text) [101, 43] :=
      endsRealAfter_of_splitLiteral (l := .decimal 2147483648 0)
        (by rw [Magnitude.text, hdigits]; decide +kernel)
        (by rw [Magnitude.text, hdigits]; decide +kernel)
    rw [Magnitude.text, hdigits] at h
    rw [htext]
    exact h
  obtain ⟨-, -, -, -, h⟩ := conversions_commute (-2147483648)
  have h₁ := (h [32, 9] [46, 53] hblanks).1 hinteger
  have h₂ := (h [32, 9] [101, 43] hblanks).2 hreal
  rw [htext] at h₁ h₂
  exact ⟨hblanks, hinteger, hreal, h₁, h₂⟩

-- the mark of a hexadecimal literal behind a zero does not go on the number without a digit
example : scanReal (Bytes.ofAscii "\n0xg".toList) = some (Binary64.ofInteger 0) := by decide +kernel

end Numeral

end AdaSupport
