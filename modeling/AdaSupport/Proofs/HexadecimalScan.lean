import AdaSupport.Proofs.DoubleRounding
import AdaSupport.Proofs.Spelling

/-!
# Reading hexadecimal spellings

The significand of a hexadecimal spelling is read digit by digit into sixteen places. Further digits
are dropped, and only their weight counts.

* `Holds s n places dropped`: what has been read of the number `n`.
* `Holds.push`, `Holds.pushAll`: one more digit, and all of them.
* `exponentAt_powerText`: the exponent, cut at its bound.
* `cut`: a run of digits with zeros for all but the first sixteen significant ones.
* `IsExponent`: the exponent that counts.
* `exists_patternAt`: the significand and the exponent that are rounded.
* **`scan_adjacent`**: the pattern that is read is the exact one or next to it.
-/

namespace AdaSupport.Numeral

theorem toLower_eq_iff {b c : UInt8} (hc : 97 ≤ c.toNat ∧ c.toNat ≤ 122) :
    Bytes.toLower b = c ↔ b = c ∨ b = c - 32 := by
  have hsub : (c - 32).toNat = c.toNat - 32 := by
    have h32 : (32 : UInt8) ≤ c := UInt8.le_iff_toNat_le.mpr (show 32 ≤ c.toNat by omega)
    exact UInt8.toNat_sub_of_le c 32 h32
  unfold Bytes.toLower
  split_ifs with hb <;>
    simp only [UInt8.le_iff_toNat_le, UInt8.reduceToNat] at hb <;>
    simp only [← UInt8.toNat_inj, UInt8.toNat_add, UInt8.reduceToNat, hsub] <;> omega

namespace Hexadecimal

open Pattern

/-! ## Digits -/

/-- `s` holds all but the last `dropped` digits of `n`, of which `places` stand behind the point. No
digit is dropped while there is room. -/
structure Holds (s : Significand) (n places dropped : ℕ) : Prop where
  kept : s.kept = n / 16 ^ dropped
  exponent : s.exponent = 4 * ((dropped : ℤ) - places)
  lt : s.kept < 2 ^ 64
  full : dropped = 0 ∨ 2 ^ 60 ≤ s.kept

theorem holds_empty : Holds .empty 0 0 0 := ⟨rfl, rfl, by decide, Or.inl rfl⟩

variable {s : Significand} {n places dropped : ℕ}

theorem Holds.atPoint (h : Holds s n places dropped) :
    Holds { s with pastPoint := true } n places dropped := ⟨h.kept, h.exponent, h.lt, h.full⟩

theorem Holds.push (h : Holds s n places dropped) {d : ℕ} (hd : d < 16) : ∃ dropped',
    Holds (s.push d) (16 * n + d) (if s.pastPoint then places + 1 else places) dropped' := by
  obtain ⟨hkept, hexponent, hlt, hfull⟩ := h
  rw [Significand.push, twoTo_eq_pow]
  by_cases hroom : s.kept < 2 ^ 60
  · obtain rfl : dropped = 0 := hfull.resolve_right (by omega)
    rw [pow_zero, Nat.div_one] at hkept
    rw [if_pos hroom]
    refine ⟨0, ?_, ?_, ?_, Or.inl rfl⟩ <;> dsimp only
    · rw [pow_zero, Nat.div_one, hkept]
    · split_ifs <;> push_cast <;> omega
    · omega
  · rw [if_neg hroom]
    refine ⟨dropped + 1, ?_, ?_, hlt, Or.inr (not_lt.mp hroom)⟩ <;> dsimp only
    · rw [pow_succ', ← Nat.div_div_eq_div_mul, show (16 * n + d) / 16 = n by omega, hkept]
    · split_ifs <;> push_cast <;> omega

theorem pastPoint_push (s : Significand) (d : ℕ) : (s.push d).pastPoint = s.pastPoint := by
  unfold Significand.push
  split <;> rfl

/-- The significand after a run of digits. -/
def pushAll (s : Significand) (ds : Bytes) : Significand :=
  ds.foldl (fun s b => s.push (Form.hexadecimal.digit b)) s

theorem Holds.pushAll (h : Holds s n places dropped) {ds : Bytes}
    (hds : Form.hexadecimal.IsRun ds) : ∃ dropped', Holds (pushAll s ds)
      (Form.hexadecimal.runFrom n ds) (if s.pastPoint then places + ds.length else places)
      dropped' := by
  induction ds generalizing s n places dropped with
  | nil => exact ⟨dropped, by simpa [Hexadecimal.pushAll, Form.runFrom] using h⟩
  | cons b ds ih =>
    obtain ⟨dropped₁, h₁⟩ := h.push (hds.digit_lt List.mem_cons_self)
    obtain ⟨dropped₂, h₂⟩ := ih h₁ fun c hc => hds c (List.mem_cons_of_mem b hc)
    rw [pastPoint_push] at h₂
    refine ⟨dropped₂, ?_⟩
    have hplaces : (if s.pastPoint then places + (b :: ds).length else places) =
        if s.pastPoint then (if s.pastPoint then places + 1 else places) + ds.length
        else if s.pastPoint then places + 1 else places := by
      rw [List.length_cons]
      split_ifs <;> omega
    rw [hplaces]
    exact h₂

theorem splitSignificand_append {ds : Bytes} (hds : Form.hexadecimal.IsRun ds) (s : Significand)
    (rest : Bytes) : splitSignificand s (ds ++ rest) = splitSignificand (pushAll s ds) rest := by
  induction ds generalizing s with
  | nil => rfl
  | cons b ds ih =>
    obtain ⟨d, hd⟩ := Option.isSome_iff_exists.mp (hds b List.mem_cons_self)
    have hb : ¬ (b = 46 ∧ s.pastPoint = false) := by
      rintro ⟨rfl, -⟩
      cases hd
    have hdigit : Form.hexadecimal.digit b = d := by rw [Form.digit, hd]; rfl
    rw [List.cons_append, splitSignificand, if_neg hb, show Bytes.hexValue? b = some d from hd]
    simp only
    rw [ih (fun c hc => hds c (List.mem_cons_of_mem b hc))]
    simp only [pushAll, List.foldl_cons, hdigit]

theorem splitSignificand_of_head? (s : Significand) {rest : Bytes}
    (h : ∀ b ∈ rest.head?, Bytes.hexValue? b = none ∧ (s.pastPoint = false → b ≠ 46)) :
    splitSignificand s rest = (s, rest) := by
  cases rest with
  | nil => rfl
  | cons b rest =>
    obtain ⟨hb, hpoint⟩ := h b rfl
    rw [splitSignificand, if_neg fun h46 => hpoint h46.2 h46.1, hb]

theorem pastPoint_pushAll (s : Significand) (ds : Bytes) :
    (pushAll s ds).pastPoint = s.pastPoint := by
  induction ds generalizing s with
  | nil => rfl
  | cons b ds ih => exact (ih _).trans (pastPoint_push s _)

/-! ## Spellings -/

section Spelling

variable (l : Spelling .hexadecimal) {tail : Bytes} (ht : l.EndsBefore tail)
include ht

theorem head?_powerText : ∀ b ∈ (powerText l.power ++ tail).head?,
    Bytes.hexValue? b = none ∧ (l.fraction = none → b ≠ 46) := by
  cases hp : l.power with
  | none => exact fun b hb => ⟨ht.digit?_eq_none hp b hb, fun hf => ht.ne_point hp hf b hb⟩
  | some p =>
    rintro b ⟨⟩
    rcases (toLower_eq_iff (by decide)).mp p.toLower_letter with h | h <;> rw [h]
    · exact ⟨by decide, fun _ => by decide⟩
    · exact ⟨by decide, fun _ => by decide⟩

/-- All digits of a spelling are read, and nothing behind them. -/
theorem exists_holds : ∃ s dropped,
    splitSignificand .empty (l.text ++ tail) = (s, powerText l.power ++ tail) ∧
      Holds s (Form.hexadecimal.run l.digits) l.places dropped := by
  have hend := head?_powerText l ht
  obtain ⟨hwhole, hfraction⟩ := Form.IsRun.append.mp l.isRun
  obtain ⟨dropped₁, h₁⟩ : ∃ dropped, Holds (pushAll .empty l.whole)
    (Form.hexadecimal.run l.whole) 0 dropped := holds_empty.pushAll hwhole
  unfold Spelling.text Spelling.digits Spelling.places
  rw [List.append_assoc, List.append_assoc, splitSignificand_append hwhole]
  cases hf : l.fraction with
  | none =>
    refine ⟨_, dropped₁, splitSignificand_of_head? _ fun b hb => ?_, ?_⟩
    · exact ⟨(hend b hb).1, fun _ => (hend b hb).2 hf⟩
    · simpa using h₁
  | some ds =>
    rw [hf] at hfraction
    obtain ⟨dropped₂, h₂⟩ := h₁.atPoint.pushAll hfraction
    rw [if_pos rfl, Nat.zero_add, Form.runFrom_eq, ← Form.run_append] at h₂
    have hpast : (pushAll .empty l.whole).pastPoint = false := pastPoint_pushAll _ _
    refine ⟨_, dropped₂, ?_, h₂⟩
    rw [pointText, List.cons_append, splitSignificand, if_pos ⟨rfl, hpast⟩]
    refine (splitSignificand_append hfraction _ _).trans ?_
    refine splitSignificand_of_head? _ fun b hb => ⟨(hend b hb).1, fun h => ?_⟩
    rw [pastPoint_pushAll] at h
    cases h

theorem exponentAt_powerText :
    exponentAt (powerText l.power ++ tail) = clampExponent maxExponent l.exponent := by
  unfold Spelling.exponent
  cases hp : l.power with
  | none =>
    change exponentAt tail = 0
    cases tail with
    | nil => rfl
    | cons b rest =>
      unfold exponentAt
      dsimp only
      split_ifs with hb
      · rw [ht.splitDigits_eq_nil hp ((toLower_eq_iff (by decide)).mpr hb)]
        rfl
      · rw [ht.splitDigits_eq_nil hp ((toLower_eq_iff (by decide)).mpr hb)]
        rfl
      · rfl
  | some p =>
    obtain ⟨hsign, hdigits⟩ := p.split (ht.not_isDigit hp)
    have hletter : p.letter = 112 ∨ p.letter = 80 :=
      (toLower_eq_iff (by decide)).mp p.toLower_letter
    rw [powerText, Power.text, List.cons_append, List.append_assoc, exponentAt, hsign]
    dsimp only
    rw [if_pos hletter, hdigits, Decimal.cappedValue_eq_min, Option.map_some, Option.getD_some,
      Power.value, signedValue, clampExponent]
    dsimp only
    split_ifs <;> omega

end Spelling

/-! ## The first sixteen digits -/

/-- The run without its leading zeros, and with zeros in place of the digits after the first
sixteen. -/
def cut (ds : Bytes) : Bytes :=
  let significant := ds.dropWhile (· == 48)
  significant.take 16 ++ List.replicate (significant.length - 16) 48

theorem digit_pos {b : UInt8} (hb : (Bytes.hexValue? b).isSome) (hne : b ≠ 48) :
    0 < Form.hexadecimal.digit b := by
  change 0 < (Bytes.hexValue? b).getD 0
  rw [ne_eq, ← UInt8.toNat_inj] at hne
  simp only [Bytes.hexValue?, UInt8.le_iff_toNat_le, UInt8.reduceToNat] at hb hne ⊢
  split_ifs at hb ⊢ <;> simp at hb ⊢ <;> omega

/-- A run of digits that does not start with zero fills its length. -/
theorem pow_le_run {b : UInt8} {ds : Bytes} (hb : (Bytes.hexValue? b).isSome) (hne : b ≠ 48) :
    16 ^ ds.length ≤ Form.hexadecimal.run (b :: ds) := by
  rw [Form.run_cons]
  exact (Nat.le_mul_of_pos_left _ (digit_pos hb hne)).trans (Nat.le_add_right _ _)

theorem Holds.dropped_le (h : Holds s n places dropped) {len : ℕ} (hn : n < 16 ^ len) :
    dropped ≤ len - 16 := by
  rcases h.full with h0 | hfull
  · omega
  · rw [h.kept, Nat.le_div_iff_mul_le (by positivity), show 2 ^ 60 = 16 ^ 15 by norm_num,
      ← pow_add] at hfull
    have := (Nat.pow_lt_pow_iff_right (by norm_num)).mp (hfull.trans_lt hn)
    omega

theorem Holds.le_dropped (h : Holds s n places dropped) {len : ℕ} (hn : 16 ^ len ≤ n) :
    len - 15 ≤ dropped := by
  have hlt := h.lt
  rw [h.kept, Nat.div_lt_iff_lt_mul (by positivity), show 2 ^ 64 = 16 ^ 16 by norm_num,
    ← pow_add] at hlt
  have := (Nat.pow_lt_pow_iff_right (by norm_num)).mp (hn.trans_lt hlt)
  omega

/-- **The digits that are kept are the first sixteen significant ones.** -/
theorem Holds.kept_eq_run {ds : Bytes} (hds : Form.hexadecimal.IsRun ds)
    (h : Holds s (Form.hexadecimal.run ds) places dropped) :
    dropped = (ds.dropWhile (· == 48)).length - 16 ∧
      s.kept = Form.hexadecimal.run ((ds.dropWhile (· == 48)).take 16) := by
  rw [← Form.run_dropWhile] at h
  have hhead := List.head?_dropWhile_not (· == 48) ds
  have hrun : Form.hexadecimal.IsRun (ds.dropWhile (· == 48)) := fun b hb =>
    hds b ((List.dropWhile_suffix _).subset hb)
  generalize ds.dropWhile (· == 48) = sig at *
  have hdropped := h.dropped_le (Form.run_lt hrun)
  have hcut : dropped = sig.length - 16 := by
    cases sig with
    | nil => rw [List.length_nil] at *; omega
    | cons b rest =>
      have hb : b ≠ 48 := by simpa using hhead
      have := h.le_dropped (pow_le_run (hrun b List.mem_cons_self) hb)
      rw [List.length_cons] at *
      omega
  refine ⟨hcut, ?_⟩
  have hdrop := Form.run_lt fun b hb => hrun b (List.mem_of_mem_drop (i := 16) hb)
  rw [List.length_drop, ← hcut] at hdrop
  rw [h.kept, ← List.take_append_drop 16 sig, Form.run_append, List.length_drop, ← hcut,
    List.take_append_drop, mul_comm]
  exact (Nat.mul_add_div hdrop.pos _ _).trans (by rw [Nat.div_eq_of_lt hdrop, Nat.add_zero])

theorem Holds.run_cut {ds : Bytes} (hds : Form.hexadecimal.IsRun ds)
    (h : Holds s (Form.hexadecimal.run ds) places dropped) :
    dropped ≤ ds.length ∧ Form.hexadecimal.run (cut ds) = s.kept * 16 ^ dropped := by
  obtain ⟨hcut, hkept⟩ := h.kept_eq_run hds
  have hle : (ds.dropWhile (· == 48)).length ≤ ds.length := List.length_dropWhile_le _ _
  refine ⟨by omega, ?_⟩
  rw [cut, Form.run_append, Form.run_replicate, List.length_replicate, ← hcut, hkept]
  rfl

/-! ## Patterns -/

theorem valueOf_eq (l : Spelling .hexadecimal) (ds : Bytes) (dropped : ℕ) (e : ℤ) :
    l.valueOf ds e = Form.hexadecimal.run ds / 16 ^ dropped *
      2 ^ (4 * ((dropped : ℤ) - l.places) + e) := by
  have h16 : (16 : ℚ) = 2 ^ (4 : ℤ) := by norm_num
  have hradix : ((Form.hexadecimal.radix : ℕ) : ℚ) = 2 ^ (4 : ℤ) := h16
  have hbase : ((Form.hexadecimal.base : ℕ) : ℚ) = 2 := rfl
  rw [Spelling.valueOf, hradix, hbase, ← zpow_natCast (16 : ℚ), h16, ← zpow_mul, ← zpow_mul,
    div_eq_mul_inv, ← zpow_neg, mul_assoc, mul_assoc, ← zpow_add₀ two_ne_zero,
    ← zpow_add₀ two_ne_zero]
  congr 2
  ring

/-- `e` stands for the exponent of a spelling: it is the one that is read, cut at its bound, or the
exact one where the digits are too few to make up for what is cut. -/
def IsExponent (l : Spelling .hexadecimal) (e : ℤ) : Prop :=
  e = clampExponent maxExponent l.exponent ∨ e = l.exponent ∧ l.digits.length < 2 ^ 17

theorem IsExponent.clampExponent_add {l : Spelling .hexadecimal} {e a : ℤ} (he : IsExponent l e)
    (ha : a.natAbs ≤ 4 * l.digits.length) :
    clampExponent 2200 (a + clampExponent maxExponent l.exponent) = clampExponent 2200 (a + e) := by
  have hmax : maxExponent = 2 ^ 20 := rfl
  rcases he with rfl | ⟨rfl, hlength⟩
  · rfl
  · rw [hmax]
    unfold clampExponent
    omega

/-- **The significand and the exponent that are rounded**: the first sixteen significant digits, and
a power of two that brings them close to the number. -/
theorem exists_patternAt (l : Spelling .hexadecimal) {tail : Bytes} (ht : l.EndsBefore tail) {e : ℤ}
    (he : IsExponent l e) : ∃ (k : ℕ) (t : ℤ),
      k < 2 ^ 64 ∧ patternAt (l.text ++ tail) = (if k = 0 then 0 else rounded k t) ∧
      l.valueOf (cut l.digits) e = k * 2 ^ t ∧
      l.valueOf (cut l.digits) e ≤ l.valueOf l.digits e ∧
      (l.valueOf l.digits e = k * 2 ^ t ∨ 2 ^ 60 ≤ k ∧ l.valueOf l.digits e < (k + 1) * 2 ^ t) := by
  obtain ⟨s, dropped, hsplit, h⟩ := exists_holds l ht
  obtain ⟨hdigits, hcut⟩ : dropped ≤ l.digits.length ∧
    Form.hexadecimal.run (cut l.digits) = s.kept * 16 ^ dropped := h.run_cut l.isRun
  have hplaces := l.places_le_length_digits
  have hexponent := h.exponent
  have hpow : (0 : ℚ) < 2 ^ (4 * ((dropped : ℤ) - l.places) + e) := by positivity
  have h16 : (0 : ℚ) < 16 ^ dropped := by positivity
  have hcutValue : l.valueOf (cut l.digits) e =
      s.kept * 2 ^ (4 * ((dropped : ℤ) - l.places) + e) := by
    rw [valueOf_eq l _ dropped, hcut, Nat.cast_mul, Nat.cast_pow, Nat.cast_ofNat,
      mul_div_cancel_right₀ _ h16.ne']
  have hlow : (s.kept : ℚ) ≤ Form.hexadecimal.run l.digits / 16 ^ dropped := by
    rw [le_div_iff₀ h16, h.kept]
    exact_mod_cast Nat.div_mul_le_self _ _
  refine ⟨s.kept, _, h.lt, ?_, hcutValue, ?_, ?_⟩
  · rw [patternAt, hsplit]
    dsimp only
    rw [exponentAt_powerText l ht, he.clampExponent_add (by omega), hexponent]
    rfl
  · rw [hcutValue, valueOf_eq l l.digits dropped]
    exact mul_le_mul_of_nonneg_right hlow hpow.le
  · rw [valueOf_eq l l.digits dropped]
    rcases h.full with rfl | hfull
    · left
      rw [h.kept, pow_zero, pow_zero, Nat.div_one, div_one]
    · refine Or.inr ⟨hfull, mul_lt_mul_of_pos_right ?_ hpow⟩
      rw [div_lt_iff₀ h16, h.kept]
      exact_mod_cast (Nat.div_lt_iff_lt_mul (by positivity)).mp (Nat.lt_succ_self _)

section Read

variable (l : Spelling .hexadecimal) {tail : Bytes} (ht : l.EndsBefore tail) {e : ℤ}
  (he : IsExponent l e)
include ht he

theorem isAdjacent_patternAt : IsAdjacent (l.valueOf l.digits e) (patternAt (l.text ++ tail)) := by
  obtain ⟨k, t, hk64, hpattern, hcut, hle, hbound⟩ := exists_patternAt l ht he
  rw [hpattern]
  split_ifs with hk
  · rw [hk, Nat.cast_zero, zero_mul, ← value_zero] at hbound
    rw [hbound.resolve_right fun h => absurd h.1 (by norm_num)]
    exact (isNearest_value (Nat.zero_le _)).isAdjacent
  · exact isAdjacent_rounded (Nat.pos_of_ne_zero hk) hk64 (hcut ▸ hle) hbound

/-- **The first sixteen significant digits are rounded to nearest**, unless they are made a tie that
goes to the other side. -/
theorem isNearest_patternAt_iff :
    IsNearest (l.valueOf (cut l.digits) e) (patternAt (l.text ++ tail)) ↔
      ¬ TiesApart (l.valueOf (cut l.digits) e) := by
  obtain ⟨k, t, hk64, hpattern, hcut, -, -⟩ := exists_patternAt l ht he
  rw [hcut, hpattern]
  split_ifs with hk
  · rw [hk, Nat.cast_zero, zero_mul]
    refine iff_of_true ?_ (not_tiesApart_of_isSignificand (value_zero ▸ isSignificand_value 0))
    exact value_zero ▸ isNearest_value (Nat.zero_le _)
  · exact isNearest_rounded_iff (Nat.pos_of_ne_zero hk) hk64

/-- So they are if the number is normal, or has no more bits than a pattern. -/
theorem isNearest_patternAt (h : 2 ^ (-1022 : ℤ) ≤ l.valueOf (cut l.digits) e ∨
    ∃ m : ℕ, m ≤ 2 ^ 53 ∧ ∃ j : ℤ, l.valueOf (cut l.digits) e = m * 2 ^ j) :
    IsNearest (l.valueOf (cut l.digits) e) (patternAt (l.text ++ tail)) :=
  (isNearest_patternAt_iff l ht he).mpr
    (h.elim not_tiesApart_of_normal not_tiesApart_of_isSignificand)

end Read

/-! ## Adjacent patterns -/

theorem valueOf_cut {l : Spelling .hexadecimal}
    (h : ∀ b ∈ (l.digits.dropWhile (· == 48)).drop 16, b = 48) (e : ℤ) :
    l.valueOf (cut l.digits) e = l.valueOf l.digits e := by
  have hzeros := List.eq_replicate_iff.mpr ⟨rfl, h⟩
  rw [List.length_drop] at hzeros
  rw [Spelling.valueOf, Spelling.valueOf, cut, ← hzeros, List.take_append_drop,
    Form.run_dropWhile]

theorem scan_text {x : UInt8} (hx : Bytes.toLower x = 120) (bs : Bytes) :
    scan (48 :: x :: bs) = some (patternAt bs) := by
  have h48 : Bytes.toLower 48 = 48 := rfl
  have hafter : Bytes.afterWord? (48 :: x :: bs) [48, 120] = some bs := by
    simp [Bytes.afterWord?, hx, h48]
  rw [scan, show Bytes.ofAscii ['0', 'x'] = [48, 120] from rfl, hafter, Option.map_some]

/-- **The pattern that is read is the exact one or next to it.** For a spelling of fewer than
`2 ^ 17` digits it is the pattern of the number if there is one, and one of the two next to the
number otherwise. When only zeros are dropped and the number is normal, it is rounded to nearest. -/
theorem scan_adjacent (l : Spelling .hexadecimal) (hlength : l.digits.length < 2 ^ 17) {x : UInt8}
    (hx : Bytes.toLower x = 120) {tail : Bytes} (ht : l.EndsBefore tail) :
    ∃ r, scan (48 :: x :: (l.text ++ tail)) = some r ∧
      (∀ q < infinity, l.value = value q → r = q) ∧
      r ≤ infinity ∧ (r = 0 ∨ value (r - 1) < l.value) ∧ (r = infinity ∨ l.value < value (r + 1)) ∧
      ((∀ b ∈ (l.digits.dropWhile (· == 48)).drop 16, b = 48) → 2 ^ (-1022 : ℤ) ≤ l.value →
        IsNearest l.value r) := by
  have he : IsExponent l l.exponent := Or.inr ⟨rfl, hlength⟩
  have hadjacent : IsAdjacent l.value (patternAt (l.text ++ tail)) := isAdjacent_patternAt l ht he
  refine ⟨_, scan_text hx _, fun q hq hvalue => hadjacent.eq_of_value hq.le hvalue, hadjacent.1,
    hadjacent.2.1, hadjacent.2.2, fun hzeros hnormal => ?_⟩
  rw [Spelling.value, ← valueOf_cut hzeros] at hnormal ⊢
  exact isNearest_patternAt l ht he (Or.inl hnormal)

/-- One and half a place, with zeros behind its first sixteen digits. -/
def tied : Spelling .hexadecimal where
  whole := [49]
  fraction := some (Bytes.ofAscii "000000000000080000".toList)
  power := none
  isRun := by decide +kernel
  ne_nil := by decide

theorem value_tied : tied.value = 1 + 2 ^ (-53 : ℤ) := by
  have hrun : Form.hexadecimal.run tied.digits = 0x1000000000000080000 := by decide +kernel
  rw [Spelling.value, valueOf_eq tied tied.digits 0, hrun, show tied.places = 18 from rfl,
    show tied.exponent = 0 from rfl]
  norm_num

/-- A tie goes to the even pattern, in front of a letter that is no digit. -/
theorem scan_adjacent_tied : tied.digits.length < 2 ^ 17 ∧ tied.EndsBefore [103] ∧
    scan (48 :: 88 :: (tied.text ++ [103])) = some 0x3ff0000000000000 ∧
    IsNearest (1 + 2 ^ (-53 : ℤ)) 0x3ff0000000000000 := by
  have hlength : tied.digits.length < 2 ^ 17 := by decide +kernel
  have hend : tied.EndsBefore [103] :=
    tied.endsBefore_cons (by unfold Spelling.IsPart; decide) []
  have hread : scan (48 :: 88 :: (tied.text ++ [103])) = some 0x3ff0000000000000 := by
    decide +kernel
  obtain ⟨r, hr, -, -, -, -, hnearest⟩ := scan_adjacent tied hlength (x := 88) (by decide) hend
  obtain rfl : 0x3ff0000000000000 = r := Option.some.inj (hread.symm.trans hr)
  refine ⟨hlength, hend, hread, value_tied ▸ hnearest (by decide +kernel) ?_⟩
  rw [value_tied]
  have hle : (2 : ℚ) ^ (-1022 : ℤ) ≤ 1 := zpow_le_one_of_nonpos₀ one_le_two (by norm_num)
  have hpos : (0 : ℚ) < 2 ^ (-53 : ℤ) := by positivity
  linarith

end Hexadecimal

end AdaSupport.Numeral
