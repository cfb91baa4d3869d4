import AdaSupport.Proofs.Literal
import AdaSupport.Proofs.Shortest

/-!
# Reals as text

* `parts`: the digits and the exponent that a layout shows; `layout_eq_literalText`, `value_parts`.
* **`scanReal_ofPattern`**: the text of a finite magnitude is read back as the same pattern, with
  either sign in front and with anything behind it that does not go on the number.
* **`toReal_ofReal`**: every real is read back from its text.
* `visible_ofReal`: the text of a real holds no blank and no zero byte.
* `length_ofReal_le`: the text of a real fits into a slot for numbers.
-/

namespace AdaSupport.Numeral

open Pattern

/-! ## The parts of a layout -/

section Layout

variable {ds : Bytes} (point : ℤ)

/-- The digits before and after the point and the exponent that a layout shows. -/
def parts (ds : Bytes) (point : ℤ) : Bytes × Bytes × Option ℤ :=
  if ds.length ≤ point ∧ point ≤ 16 then
    (ds ++ List.replicate (point - ds.length).toNat 48, [], none)
  else if 0 < point ∧ point ≤ 16 then (ds.take point.toNat, ds.drop point.toNat, none)
  else if -5 < point ∧ point ≤ 0 then ([48], List.replicate (-point).toNat 48 ++ ds, none)
  else (ds.take 1, ds.drop 1, some (point - 1))

theorem fractionText_of_ne_nil {fraction : Bytes} (h : fraction ≠ []) :
    fractionText fraction = 46 :: fraction := if_neg h

theorem layout_eq_literalText (hne : ds ≠ []) :
    layout ds point = literalText (parts ds point).1 (parts ds point).2.1 (parts ds point).2.2 := by
  have hlen := List.length_pos_iff.mpr hne
  simp only [layout, parts]
  split_ifs with h₁ h₂ h₃ h₄ h₅ h₅
  · simp [literalText, fractionText, exponentText]
  · have hdrop : ds.drop point.toNat ≠ [] := by
      rw [ne_eq, List.drop_eq_nil_iff]; omega
    simp [literalText, fractionText_of_ne_nil hdrop, exponentText]
  · have hdrop : List.replicate (-point).toNat 48 ++ ds ≠ [] := by simp [hne]
    simp [literalText, fractionText_of_ne_nil hdrop, exponentText]
  · have hdrop : ds.drop 1 = [] := List.drop_eq_nil_iff.mpr h₄
    simp [literalText, fractionText, hdrop, exponentText, signed, h₅]
  · have hdrop : ds.drop 1 = [] := List.drop_eq_nil_iff.mpr h₄
    simp [literalText, fractionText, hdrop, exponentText, signed, h₅]
  · have hdrop : ds.drop 1 ≠ [] := by rw [ne_eq, List.drop_eq_nil_iff]; omega
    simp only [literalText, fractionText_of_ne_nil hdrop, exponentText, signed, h₅, decide_true,
      if_true, List.append_assoc]
  · have hdrop : ds.drop 1 ≠ [] := by rw [ne_eq, List.drop_eq_nil_iff]; omega
    simp only [literalText, fractionText_of_ne_nil hdrop, exponentText, signed, h₅, decide_false,
      Bool.false_eq_true, if_false, List.append_assoc]

theorem allDigits_parts (hd : ds.AllDigits) :
    (parts ds point).1.AllDigits ∧ (parts ds point).2.1.AllDigits := by
  have htake : ∀ n, Bytes.AllDigits (ds.take n) := fun n b hb => hd b (List.mem_of_mem_take hb)
  have hdrop : ∀ n, Bytes.AllDigits (ds.drop n) := fun n b hb => hd b (List.mem_of_mem_drop hb)
  simp only [parts]
  split_ifs
  · exact ⟨hd.append (Bytes.allDigits_zeros _), fun b h => nomatch h⟩
  · exact ⟨htake _, hdrop _⟩
  · exact ⟨Bytes.allDigits_zeros 1, (Bytes.allDigits_zeros _).append hd⟩
  · exact ⟨htake _, hdrop _⟩

theorem parts_ne_nil (hne : ds ≠ []) : (parts ds point).1 ≠ [] := by
  simp only [parts]
  split_ifs
  · simp [hne]
  · simp only [ne_eq, List.take_eq_nil_iff, hne, or_false]; omega
  · simp
  · simp [hne]

theorem parts_exponent : ∀ e ∈ (parts ds point).2.2, e = point - 1 := by
  simp only [parts]
  split_ifs
  · exact fun e h => nomatch h
  · exact fun e h => nomatch h
  · exact fun e h => nomatch h
  · rintro e ⟨⟩; rfl

/-- **A layout shows the number that its digits and the place of its point denote.** -/
theorem value_parts (hne : ds ≠ []) :
    (Decimal.value ((parts ds point).1 ++ (parts ds point).2.1) : ℚ) *
        10 ^ ((parts ds point).2.2.getD 0 - (parts ds point).2.1.length) =
      Decimal.value ds * 10 ^ (point - ds.length) := by
  have hlen := List.length_pos_iff.mpr hne
  simp only [parts]
  split_ifs with h₁ h₂ h₃
  · have hpow : (10 : ℚ) ^ (point - ds.length) = 10 ^ (point - ds.length).toNat := by
      rw [← zpow_natCast, Int.toNat_of_nonneg (by omega)]
    simp [Decimal.value_append, Decimal.value_zeros, hpow]
  · have hexp : (none.getD 0 : ℤ) - (ds.drop point.toNat).length = point - ds.length := by
      rw [List.length_drop, Option.getD_none]; omega
    rw [List.take_append_drop, hexp]
  · have hexp : (none.getD 0 : ℤ) - (List.replicate (-point).toNat (48 : UInt8) ++ ds).length =
        point - ds.length := by
      rw [List.length_append, List.length_replicate, Option.getD_none]; omega
    have hval : Decimal.value ([48] ++ (List.replicate (-point).toNat 48 ++ ds)) =
        Decimal.value ds := by
      rw [← List.append_assoc, Decimal.value_append,
        show [48] ++ List.replicate (-point).toNat (48 : UInt8) =
          List.replicate ((-point).toNat + 1) 48 from List.replicate_succ.symm,
        Decimal.value_zeros, Nat.zero_mul, Nat.zero_add]
    rw [hexp, hval]
  · have hexp : ((some (point - 1)).getD 0 : ℤ) - (ds.drop 1).length = point - ds.length := by
      rw [List.length_drop, Option.getD_some]; omega
    rw [List.take_append_drop, hexp]

end Layout

/-! ## Reading back -/

section RoundTrip

variable {p : ℕ} {tail : Bytes}

/-- The digits in the text of a finite magnitude. -/
def digitsOf (p : ℕ) : Bytes := (significant (Decimal.shortest p).digits).1

/-- The place of the point among them. -/
def pointOf (p : ℕ) : ℤ :=
  (digitsOf p).length + (significant (Decimal.shortest p).digits).2 + (Decimal.shortest p).exponent

theorem ofPattern_eq_layout (h0 : 0 < p) : ofPattern p = layout (digitsOf p) (pointOf p) := by
  rw [ofPattern, if_neg h0.ne']
  rfl

theorem length_digitsOf_le (h0 : 0 < p) :
    (digitsOf p).length + (significant (Decimal.shortest p).digits).2 ≤ 18 := by
  rw [digitsOf, length_significant]
  refine Decimal.width_le_of_lt_tenTo (by decide) ?_
  exact lt_of_le_of_lt (Decimal.shortest_digits_le h0) (by decide)

theorem pointOf_bounds (h0 : 0 < p) (hp : p < infinity) : -340 ≤ pointOf p ∧ pointOf p ≤ 326 := by
  have hw := length_digitsOf_le h0
  have he := Decimal.shortest_exponent_bounds h0 hp
  unfold pointOf
  omega

theorem digitsOf_ne_nil (h0 : 0 < p) (hp : p < infinity) : digitsOf p ≠ [] :=
  significant_ne_nil (Decimal.shortest_digits_pos h0 hp)

theorem allDigits_digitsOf (p : ℕ) : (digitsOf p).AllDigits := allDigits_significant _

/-- The digits with the point in its place denote the shortest decimal. -/
theorem value_digitsOf (p : ℕ) :
    (Decimal.value (digitsOf p) : ℚ) * 10 ^ (pointOf p - (digitsOf p).length) =
      (Decimal.shortest p).digits * 10 ^ (Decimal.shortest p).exponent := by
  have hexp : pointOf p - (digitsOf p).length =
      (significant (Decimal.shortest p).digits).2 + (Decimal.shortest p).exponent := by
    unfold pointOf; omega
  have hval : ((Decimal.shortest p).digits : ℚ) =
      Decimal.value (digitsOf p) * 10 ^ (significant (Decimal.shortest p).digits).2 := by
    exact_mod_cast (value_significant (Decimal.shortest p).digits).symm
  rw [hexp, zpow_add₀ (by norm_num), zpow_natCast, ← mul_assoc, ← hval]

/-- **The text of a finite magnitude is read back as the same pattern.** -/
theorem scanReal_ofPattern (negative : Bool) (hp : p < infinity) (ht : EndsReal tail) :
    scanReal (signed negative (ofPattern p) ++ tail) = some (.ofPattern negative p) := by
  rcases Nat.eq_zero_or_pos p with rfl | h0
  · have h : scanReal (signed negative (literalText [48] [] none) ++ tail) =
        some (.ofPattern negative (decimalPattern 0 0)) :=
      scanReal_literalText negative (Bytes.allDigits_zeros 1) (by decide) (fun b h => nomatch h)
        (fun e h => nomatch h) ht
    exact h
  have hne := digitsOf_ne_nil h0 hp
  have hdigits := allDigits_parts (pointOf p) (allDigits_digitsOf p)
  have hb := pointOf_bounds h0 hp
  rw [ofPattern_eq_layout h0, layout_eq_literalText _ hne,
    scanReal_literalText negative hdigits.1 (parts_ne_nil _ hne) hdigits.2 (fun e he => ?_) ht]
  · -- what the text denotes is the shortest decimal, so both round to the same pattern
    have h := isNearest_decimalPattern
      (Decimal.value ((parts (digitsOf p) (pointOf p)).1 ++ (parts (digitsOf p) (pointOf p)).2.1))
      ((parts (digitsOf p) (pointOf p)).2.2.getD 0 - (parts (digitsOf p) (pointOf p)).2.1.length)
    rw [value_parts _ hne, value_digitsOf] at h
    rw [h.unique (Decimal.isNearest_shortest h0 hp)]
  · rw [parts_exponent _ e he, exponentBound, twoTo_eq_pow]
    omega

end RoundTrip

theorem ofPattern_negative_pattern (x : Binary64) : .ofPattern x.negative x.pattern = x := by
  obtain ⟨bits⟩ := x
  have hlt := bits.toNat_lt
  have h63 : twoTo 63 = 2 ^ 63 := rfl
  simp only [Binary64.ofPattern, Binary64.pattern, Binary64.negative, decide_eq_true_eq, h63]
  congr 1
  rw [← UInt64.toNat_inj, UInt64.toNat_ofNat']
  split_ifs <;> omega

theorem ofReal_eq_signed {x : Binary64} (h : x.isNaN = false) : ofReal x =
    signed x.negative
      (if x.isFinite then ofPattern x.pattern else Bytes.ofAscii ['i', 'n', 'f']) := by
  simp [ofReal, h, signed]

/-- A real that is no NaN is read back from its text, in front of anything that ends a number. -/
theorem scanReal_ofReal_append {x : Binary64} (h : x.isNaN = false) {tail : Bytes}
    (ht : EndsReal tail) : scanReal (ofReal x ++ tail) = some x := by
  rw [ofReal_eq_signed h]
  by_cases hf : x.isFinite = true
  · have hp : x.pattern < infinity := by simpa [Binary64.isFinite] using hf
    rw [if_pos hf, scanReal_ofPattern x.negative hp ht, ofPattern_negative_pattern]
  · have hp : x.pattern = infinity := by
      simp only [Binary64.isFinite, Binary64.isNaN, decide_eq_true_eq,
        decide_eq_false_iff_not] at hf h
      exact le_antisymm (not_lt.mp h) (not_lt.mp hf)
    rw [if_neg hf, scanReal_infinity x.negative ht, ← hp, ofPattern_negative_pattern]

theorem scanReal_ofReal_of_isNaN {x : Binary64} (h : x.isNaN = true) (tail : Bytes) :
    scanReal (ofReal x ++ tail) = some .nan := by
  rw [ofReal, if_pos h, scanReal_nan]

/-- **Every real is read back from its text**: a finite or infinite one in every bit, a NaN as a
NaN. -/
theorem toReal_ofReal (x : Binary64) :
    (x.isNaN = false → toReal (some (ofReal x)) = x) ∧
      (x.isNaN = true → (toReal (some (ofReal x))).isNaN = true) := by
  refine ⟨fun h => ?_, fun h => ?_⟩
  · have hscan := scanReal_ofReal_append h endsReal_nil
    rw [List.append_nil] at hscan
    rw [toReal, Option.bind_some, hscan, Option.getD_some]
  · have hscan := scanReal_ofReal_of_isNaN h []
    rw [List.append_nil] at hscan
    rw [toReal, Option.bind_some, hscan, Option.getD_some]
    decide

/-- The least subnormal number with a minus sign, the largest finite number, and a signaling NaN. -/
theorem toReal_ofReal_extremes :
    toReal (some (ofReal ⟨0x8000000000000001⟩)) = ⟨0x8000000000000001⟩ ∧
      toReal (some (ofReal ⟨0x7fefffffffffffff⟩)) = ⟨0x7fefffffffffffff⟩ ∧
      (toReal (some (ofReal ⟨0x7ff0000000000001⟩))).isNaN = true :=
  ⟨(toReal_ofReal _).1 (by decide), (toReal_ofReal _).1 (by decide),
    (toReal_ofReal _).2 (by decide)⟩

/-! ## The bytes of a number -/

/-- Every byte lies above the blanks and the zero byte. -/
def Visible (bs : Bytes) : Prop := ∀ b ∈ bs, 32 < b

instance (bs : Bytes) : Decidable (Visible bs) := List.decidableBAll (32 < ·) bs

section Visible

variable {bs cs : Bytes}

theorem Visible.zero_not_mem (h : Visible bs) : 0 ∉ bs := fun h0 => absurd (h 0 h0) (by decide)

theorem Visible.not_blank (h : Visible bs) : ∀ b ∈ bs, Bytes.isBlank b = false := by
  intro b hb
  have hlt : 32 < b.toNat := UInt8.lt_iff_toNat_lt.mp (h b hb)
  simp only [Bytes.isBlank, Bool.or_eq_false_iff, beq_eq_false_iff_ne, Bool.and_eq_false_iff,
    decide_eq_false_iff_not, UInt8.le_iff_toNat_le, ne_eq, ← UInt8.toNat_inj]
  exact ⟨hlt.ne', .inr (not_le.mpr (lt_trans (by decide) hlt))⟩

theorem Visible.append (h : Visible bs) (h' : Visible cs) : Visible (bs ++ cs) :=
  List.forall_mem_append.mpr ⟨h, h'⟩

theorem Visible.cons {b : UInt8} (hb : 32 < b) (h : Visible bs) : Visible (b :: bs) :=
  List.forall_mem_cons.mpr ⟨hb, h⟩

theorem visible_of_allDigits (h : bs.AllDigits) : Visible bs := by
  intro b hb
  have hdigit := Bytes.isDigit_iff.mp (h b hb)
  exact UInt8.lt_iff_toNat_lt.mpr (lt_of_lt_of_le (by decide) hdigit.1)

theorem visible_signed (negative : Bool) (h : Visible bs) : Visible (signed negative bs) := by
  cases negative with
  | false => exact h
  | true => exact h.cons (by decide)

theorem visible_literalText (hw : bs.AllDigits) (hf : cs.AllDigits) (exponent : Option ℤ) :
    Visible (literalText bs cs exponent) := by
  have hfraction : Visible (fractionText cs) := by
    unfold fractionText
    split_ifs
    · decide
    · exact (visible_of_allDigits hf).cons (by decide)
  have hexponent : Visible (exponentText exponent) := by
    cases exponent with
    | none => exact (by decide : Visible [])
    | some e =>
      exact (visible_signed _ (visible_of_allDigits (Bytes.allDigits_digits _))).cons (by decide)
  exact (visible_of_allDigits hw).append (hfraction.append hexponent)

end Visible

/-- The text of a real is a word, a zero, or a literal with the parts of its layout. -/
theorem ofReal_cases (x : Binary64) : ofReal x = Bytes.ofAscii ['n', 'a', 'n'] ∨
    ∃ body, ofReal x = signed x.negative body ∧
      (body ∈ [Bytes.ofAscii ['i', 'n', 'f'], [48]] ∨
        ∃ p, 0 < p ∧ p < infinity ∧ body = literalText (parts (digitsOf p) (pointOf p)).1
          (parts (digitsOf p) (pointOf p)).2.1 (parts (digitsOf p) (pointOf p)).2.2) := by
  by_cases h : x.isNaN = true
  · exact .inl (if_pos h)
  refine .inr ⟨_, ofReal_eq_signed (Bool.eq_false_iff.mpr h), ?_⟩
  split_ifs with hf
  · have hp : x.pattern < infinity := by simpa [Binary64.isFinite] using hf
    rcases Nat.eq_zero_or_pos x.pattern with h0 | h0
    · rw [h0]
      exact .inl (by decide)
    · refine .inr ⟨x.pattern, h0, hp, ?_⟩
      rw [ofPattern_eq_layout h0, layout_eq_literalText _ (digitsOf_ne_nil h0 hp)]
  · exact .inl List.mem_cons_self

theorem visible_ofReal (x : Binary64) : Visible (ofReal x) := by
  rcases ofReal_cases x with h | ⟨body, h, hbody | ⟨p, -, -, rfl⟩⟩ <;> rw [h]
  · decide
  · have hwords : ∀ word ∈ [Bytes.ofAscii ['i', 'n', 'f'], [48]], Visible word := by decide
    exact visible_signed _ (hwords body hbody)
  · have hd := allDigits_parts (pointOf p) (allDigits_digitsOf p)
    exact visible_signed _ (visible_literalText hd.1 hd.2 _)

/-! ## Size -/

theorem length_signed_le (negative : Bool) (body : Bytes) :
    (signed negative body).length ≤ body.length + 1 := by
  cases negative <;> simp [signed]

theorem length_parts_le (ds : Bytes) (point : ℤ) :
    (parts ds point).1.length + (parts ds point).2.1.length ≤ ds.length + 16 := by
  simp only [parts]
  split_ifs <;> simp <;> omega

theorem length_fractionText_le (fraction : Bytes) :
    (fractionText fraction).length ≤ fraction.length + 1 := by
  unfold fractionText
  split_ifs <;> simp

theorem length_exponentText_le {exponent : Option ℤ} (h : ∀ e ∈ exponent, e.natAbs < 1000) :
    (exponentText exponent).length ≤ 5 := by
  cases exponent with
  | none => simp [exponentText]
  | some e =>
    have hw := Decimal.width_le_of_lt_tenTo (k := 3) (by decide) (h e rfl)
    have hs := length_signed_le (e < 0) (Decimal.digits e.natAbs)
    rw [Decimal.length_digits] at hs
    simp only [exponentText, List.length_cons]
    omega

/-- The text of a real leaves room for the zero byte in a slot for numbers. -/
theorem length_ofReal_le (x : Binary64) : (ofReal x).length ≤ 63 := by
  rcases ofReal_cases x with h | ⟨body, h, hbody | ⟨p, h0, hp, rfl⟩⟩ <;> rw [h]
  · decide
  · have hwords : ∀ word ∈ [Bytes.ofAscii ['i', 'n', 'f'], [48]], word.length + 1 ≤ 63 := by decide
    exact (length_signed_le _ _).trans (hwords body hbody)
  · have hb := pointOf_bounds h0 hp
    have hd := length_digitsOf_le h0
    have hparts := length_parts_le (digitsOf p) (pointOf p)
    have hfrac := length_fractionText_le (parts (digitsOf p) (pointOf p)).2.1
    have hexp : (exponentText (parts (digitsOf p) (pointOf p)).2.2).length ≤ 5 := by
      refine length_exponentText_le fun e he => ?_
      rw [parts_exponent _ e he]
      omega
    refine (length_signed_le _ _).trans ?_
    rw [literalText, List.length_append, List.length_append]
    omega

end AdaSupport.Numeral
