import AdaSupport.Proofs.Agreement

/-!
# The longest literal in front of a string

* `Magnitude`, `Written`: an unsigned and a signed real as it may be written, a word or a decimal
  spelling, with its `text`.
* `splitLiteral_sound`: what is split off is a literal that stands in front.
* `splitLiteral_reaches`: reading never stops inside of a literal.
* `splitLiteral_of_endsBefore`: so the longest literal is split off.
* `Written.Denotes`: the number that is written. The digits of an exponent count up to a bound.
* `scanReal_cappedDecimal`: a number that is not rounded to nearest, since its exponent is not read
  to the end.
* **`scanReal_longest`**: the longest literal in front of a string is read.
-/

namespace AdaSupport

namespace Bytes

/-! ## Readers of parts -/

theorem afterWord?_eq_some_iff {bs word rest : Bytes} :
    afterWord? bs word = some rest ↔ ∃ t : Bytes, t.map toLower = word ∧ bs = t ++ rest := by
  constructor
  · intro h
    unfold afterWord? at h
    split_ifs at h with hword
    cases h
    exact ⟨_, hword, (List.take_append_drop _ _).symm⟩
  · rintro ⟨t, rfl, rfl⟩
    simp [afterWord?]

theorem splitDigits_run {ds : Bytes} (hd : AllDigits ds) (bs : Bytes) :
    splitDigits (ds ++ bs) = (ds ++ (splitDigits bs).1, (splitDigits bs).2) := by
  simp only [splitDigits, List.span_eq_takeWhile_dropWhile, List.takeWhile_append_of_pos hd,
    List.dropWhile_append_of_pos hd]

theorem splitDigits_suffix (bs : Bytes) : (splitDigits bs).2 <:+ bs := ⟨_, (splitDigits_spec bs).1⟩

end Bytes

namespace Numeral

open Pattern

theorem exists_pointText (bs : Bytes) : ∃ fraction : Option Bytes,
    bs = pointText fraction ++ (splitFraction bs).2 ∧ (splitFraction bs).1 = fraction.getD [] ∧
      (fraction.getD []).AllDigits := by
  cases bs with
  | nil => exact ⟨none, rfl, rfl, fun b h => nomatch h⟩
  | cons b rest =>
    obtain ⟨hsplit, hdigits, -⟩ := Bytes.splitDigits_spec rest
    by_cases hb : b = 46
    · subst hb
      refine ⟨some (Bytes.splitDigits rest).1, ?_, rfl, hdigits⟩
      exact congrArg (46 :: ·) hsplit.symm
    · refine ⟨none, ?_, ?_, fun b h => nomatch h⟩ <;> simp [splitFraction, hb, pointText]

theorem exists_powerText (bs : Bytes) : ∃ power : Option (Power Form.decimal.mark),
    bs = powerText power ++ (splitExponent bs).2 ∧ (splitExponent bs).1 = (power.map fun p =>
      signedValue p.sign (Decimal.leadingValue exponentBound p.digits)).getD 0 := by
  cases bs with
  | nil => exact ⟨none, rfl, rfl⟩
  | cons b rest =>
    obtain ⟨sign, body, rfl, hbody⟩ := exists_signText rest
    obtain ⟨hsplit, hdigits, -⟩ := Bytes.splitDigits_spec body
    by_cases hb : (b = 101 ∨ b = 69) ∧ (Bytes.splitDigits body).1 ≠ []
    · have hletter : Bytes.toLower b = 101 := (toLower_eq_iff (by decide)).mpr hb.1
      refine ⟨some ⟨b, sign, _, hletter, hdigits, hb.2⟩, ?_, ?_⟩
      · simp only [splitExponent, splitSign_signText hbody, if_pos hb, powerText, Power.text,
          List.cons_append, List.append_assoc, hsplit]
      · simp only [splitExponent, splitSign_signText hbody, if_pos hb]
        rfl
    · refine ⟨none, ?_, ?_⟩ <;> simp only [splitExponent, splitSign_signText hbody, if_neg hb]
      · rfl
      · rfl

theorem splitFraction_suffix (bs : Bytes) : (splitFraction bs).2 <:+ bs := by
  obtain ⟨fraction, hsplit, -⟩ := exists_pointText bs
  exact ⟨_, hsplit.symm⟩

theorem splitExponent_suffix (bs : Bytes) : (splitExponent bs).2 <:+ bs := by
  obtain ⟨power, hsplit, -⟩ := exists_powerText bs
  exact ⟨_, hsplit.symm⟩

/-! ## Decimal spellings -/

/-- What is left of a string behind the digits, the fraction and the exponent in front of it. -/
def afterDecimal (bs : Bytes) : Bytes :=
  (splitExponent (splitFraction (Bytes.splitDigits bs).2).2).2

theorem afterDecimal_suffix (bs : Bytes) : afterDecimal bs <:+ bs :=
  (splitExponent_suffix _).trans ((splitFraction_suffix _).trans (Bytes.splitDigits_suffix _))

/-- The literal that a decimal spelling is read as. -/
def literalOf (d : Spelling .decimal) : Literal :=
  .decimal (Decimal.value d.digits) (readExponent d - d.places)

theorem splitDecimal_eq_none_iff {bs : Bytes} : splitDecimal bs = none ↔
    (Bytes.splitDigits bs).1 = [] ∧ (splitFraction (Bytes.splitDigits bs).2).1 = [] := by
  unfold splitDecimal
  dsimp only
  split_ifs with h <;> simp [h]

theorem splitDecimal_sound {bs rest : Bytes} {l : Literal} (h : splitDecimal bs = some (l, rest)) :
    rest = afterDecimal bs ∧ ∃ d : Spelling .decimal, bs = d.text ++ rest ∧ literalOf d = l := by
  have hne : ¬ ((Bytes.splitDigits bs).1 = [] ∧ (splitFraction (Bytes.splitDigits bs).2).1 = []) :=
    fun hnil => by rw [splitDecimal_eq_none_iff.mpr hnil] at h; cases h
  unfold splitDecimal at h
  dsimp only at h
  rw [if_neg hne] at h
  cases h
  obtain ⟨hwhole, hdigits, -⟩ := Bytes.splitDigits_spec bs
  obtain ⟨fraction, hfraction, hfractionDigits, hallFraction⟩ :=
    exists_pointText (Bytes.splitDigits bs).2
  obtain ⟨power, hpower, hexponent⟩ := exists_powerText (splitFraction (Bytes.splitDigits bs).2).2
  rw [hfractionDigits] at hne
  refine ⟨rfl, ⟨(Bytes.splitDigits bs).1, fraction, power,
    decimal_isRun_iff.mpr (hdigits.append hallFraction), by simpa using hne⟩, ?_, ?_⟩
  · rw [Spelling.text, List.append_assoc, List.append_assoc, ← hpower, ← hfraction, hwhole]
  · rw [hexponent, hfractionDigits]
    rfl

section Reaches

variable (tail : Bytes)

theorem splitExponent_power (p : Power Form.decimal.mark) :
    (splitExponent (p.text ++ tail)).2 = (Bytes.splitDigits tail).2 := by
  have hletter : p.letter = 101 ∨ p.letter = 69 := (toLower_eq_iff (by decide)).mp p.toLower_letter
  have hsign : Bytes.splitSign (signText p.sign ++ (p.digits ++ tail)) =
      (p.sign.getD false, p.digits ++ tail) :=
    splitSign_signText fun _ =>
      (startsBare_of_allDigits p.allDigits p.ne_nil tail).startsUnsigned
  have hne : p.digits ++ (Bytes.splitDigits tail).1 ≠ [] := by simp [p.ne_nil]
  simp only [Power.text, List.cons_append, List.append_assoc, splitExponent, hsign,
    Bytes.splitDigits_run p.allDigits, if_pos (And.intro hletter hne)]

/-- The letter of an exponent ends the digits in front of it, and no fraction starts there. -/
theorem splitDigits_power (p : Power Form.decimal.mark) :
    Bytes.splitDigits (p.text ++ tail) = ([], p.text ++ tail) ∧
      splitFraction (p.text ++ tail) = ([], p.text ++ tail) := by
  rcases (toLower_eq_iff (by decide)).mp p.toLower_letter with h | h <;>
    simp only [Power.text, List.cons_append, h] <;> exact ⟨rfl, rfl⟩

theorem splitFraction_point (ds : Bytes) :
    splitFraction (46 :: ds) = Bytes.splitDigits ds := rfl

theorem afterDecimal_power (p : Power Form.decimal.mark) {ds : Bytes} (hd : ds.AllDigits) :
    afterDecimal (ds ++ (p.text ++ tail)) = (Bytes.splitDigits tail).2 := by
  rw [afterDecimal, Bytes.splitDigits_run hd, (splitDigits_power tail p).1]
  dsimp only
  rw [(splitDigits_power tail p).2, splitExponent_power]

/-- Reading does not stop inside of a decimal spelling. -/
theorem length_afterDecimal_le (d : Spelling .decimal) :
    (afterDecimal (d.text ++ tail)).length ≤ tail.length := by
  obtain ⟨hwhole, hfraction⟩ := (decimal_isRun_iff.mp d.isRun).of_append
  rw [Spelling.text, List.append_assoc, List.append_assoc]
  cases hf : d.fraction with
  | none =>
    rw [pointText, List.nil_append]
    cases hp : d.power with
    | none =>
      rw [powerText, List.nil_append, afterDecimal, Bytes.splitDigits_run hwhole]
      exact (afterDecimal_suffix tail).length_le
    | some p =>
      rw [powerText, afterDecimal_power tail p hwhole]
      exact (Bytes.splitDigits_suffix tail).length_le
  | some ds =>
    rw [hf, Option.getD_some] at hfraction
    have hpoint : Bytes.splitDigits (46 :: (ds ++ (powerText d.power ++ tail))) =
        ([], 46 :: (ds ++ (powerText d.power ++ tail))) := rfl
    rw [pointText, List.cons_append, afterDecimal, Bytes.splitDigits_run hwhole, hpoint]
    dsimp only
    rw [splitFraction_point, Bytes.splitDigits_run hfraction]
    dsimp only
    cases hp : d.power with
    | none =>
      exact ((splitExponent_suffix _).trans (Bytes.splitDigits_suffix tail)).length_le
    | some p =>
      rw [powerText, (splitDigits_power tail p).1, splitExponent_power]
      exact (Bytes.splitDigits_suffix tail).length_le

theorem splitDecimal_ne_none (d : Spelling .decimal) : splitDecimal (d.text ++ tail) ≠ none := by
  obtain ⟨hwhole, hfraction⟩ := (decimal_isRun_iff.mp d.isRun).of_append
  rw [ne_eq, splitDecimal_eq_none_iff, Spelling.text, List.append_assoc, List.append_assoc,
    Bytes.splitDigits_run hwhole]
  dsimp only
  rintro ⟨hnil, hfractionNil⟩
  have hempty : d.whole = [] := (List.append_eq_nil_iff.mp hnil).1
  have hne := d.ne_nil
  cases hf : d.fraction with
  | none => exact hne (by rw [hempty, hf]; rfl)
  | some ds =>
    rw [hf, Option.getD_some] at hfraction
    rw [hf, pointText, List.cons_append] at hfractionNil
    change (Bytes.splitDigits (ds ++ (powerText d.power ++ tail))).1 = [] at hfractionNil
    rw [Bytes.splitDigits_run hfraction] at hfractionNil
    have hnone : ds = [] := (List.append_eq_nil_iff.mp hfractionNil).1
    exact hne (by rw [hempty, hf, hnone]; rfl)

end Reaches

/-! ## Literals -/

/-- The words for infinity. -/
def infinityWords : List Bytes :=
  [Bytes.ofAscii ['i', 'n', 'f', 'i', 'n', 'i', 't', 'y'], Bytes.ofAscii ['i', 'n', 'f']]

/-- An unsigned real as it may be written: a word in any letter case, or a decimal spelling. -/
inductive Magnitude where
  | infinity (text : Bytes) (h : text.map Bytes.toLower ∈ infinityWords)
  | nan (text : Bytes) (h : text.map Bytes.toLower = Bytes.ofAscii ['n', 'a', 'n'])
  | decimal (d : Spelling .decimal)

namespace Magnitude

def text : Magnitude → Bytes
  | infinity text _ => text
  | nan text _ => text
  | decimal d => d.text

/-- The literal it is read as. -/
def literal : Magnitude → Literal
  | infinity _ _ => .infinity
  | nan _ _ => .nan
  | decimal d => literalOf d

/-- No longer literal stands in front of the text that goes on with `tail`. -/
def EndsBefore (m : Magnitude) (tail : Bytes) : Prop :=
  ∀ m' : Magnitude, m'.text <+: m.text ++ tail → m'.text.length ≤ m.text.length

end Magnitude

theorem splitLiteral_sound {bs rest : Bytes} {l : Literal} (h : splitLiteral bs = some (l, rest)) :
    ∃ m : Magnitude, bs = m.text ++ rest ∧ m.literal = l := by
  unfold splitLiteral at h
  split at h
  · next hword =>
    cases h
    obtain ⟨t, ht, rfl⟩ := Bytes.afterWord?_eq_some_iff.mp hword
    exact ⟨.infinity t (ht ▸ List.mem_cons_self), rfl, rfl⟩
  split at h
  · next hword =>
    cases h
    obtain ⟨t, ht, rfl⟩ := Bytes.afterWord?_eq_some_iff.mp hword
    exact ⟨.infinity t (ht ▸ List.mem_cons_of_mem _ List.mem_cons_self), rfl, rfl⟩
  split at h
  · next hword =>
    cases h
    obtain ⟨t, ht, rfl⟩ := Bytes.afterWord?_eq_some_iff.mp hword
    exact ⟨.nan t ht, rfl, rfl⟩
  · obtain ⟨-, d, hd, hl⟩ := splitDecimal_sound h
    exact ⟨.decimal d, hd, hl⟩

theorem afterWord?_infinity {t : Bytes} (ht : t.map Bytes.toLower = Bytes.ofAscii ['n', 'a', 'n'])
    (tail : Bytes) : ∀ word ∈ infinityWords, Bytes.afterWord? (t ++ tail) word = none := by
  cases t with
  | nil => cases ht
  | cons b t =>
    have hb : Bytes.toLower b = 110 := (List.cons.inj ht).1
    have hne : Bytes.toLower b ≠ 105 := by rw [hb]; decide
    rintro word (_ | ⟨_, _ | ⟨_, _ | _⟩⟩)
    · exact afterWord?_cons_of_ne hne _ _
    · exact afterWord?_cons_of_ne hne _ _

theorem splitLiteral_decimal (d : Spelling .decimal) (tail : Bytes) :
    splitLiteral (d.text ++ tail) = splitDecimal (d.text ++ tail) := by
  obtain ⟨b, bs, htext, hb⟩ := exists_text_decimal d
  rw [htext, List.cons_append]
  rcases hb with hb | rfl
  · exact splitLiteral_of_isDigit hb _
  · exact splitLiteral_of_ne (by decide) (by decide) _

theorem literalOf_eq_of_text_eq {d d' : Spelling .decimal} (h : d.text = d'.text) :
    literalOf d = literalOf d' := by
  have hsplit := splitDecimal_text d
  rw [h, splitDecimal_text d'] at hsplit
  exact (Prod.mk.inj (Option.some.inj hsplit)).1.symm

/-- **Reading does not stop inside of a literal**, and where it stops at the end it has read that
literal. -/
theorem splitLiteral_reaches (m : Magnitude) (tail : Bytes) :
    ∃ l rest, splitLiteral (m.text ++ tail) = some (l, rest) ∧ rest.length ≤ tail.length ∧
      (rest = tail → l = m.literal) := by
  cases m with
  | infinity t ht =>
    rw [Magnitude.text, splitLiteral]
    cases hlong : Bytes.afterWord? (t ++ tail)
        (Bytes.ofAscii ['i', 'n', 'f', 'i', 'n', 'i', 't', 'y']) with
    | some rest =>
      refine ⟨_, _, rfl, ?_, fun _ => rfl⟩
      obtain ⟨t', ht', happend⟩ := Bytes.afterWord?_eq_some_iff.mp hlong
      have hlength : t'.length = 8 := by rw [← List.length_map Bytes.toLower, ht']; rfl
      have hle : t.length ≤ 8 := by
        rw [← List.length_map Bytes.toLower]
        have hwords : ∀ word ∈ infinityWords, word.length ≤ 8 := by decide
        exact hwords _ ht
      have := congrArg List.length happend
      rw [List.length_append, List.length_append] at this
      omega
    | none =>
      have hshort : t.map Bytes.toLower = Bytes.ofAscii ['i', 'n', 'f'] := by
        rcases List.mem_cons.mp ht with h | h
        · rw [Bytes.afterWord?_eq_some_iff.mpr ⟨t, h, rfl⟩] at hlong
          cases hlong
        · exact List.mem_singleton.mp h
      rw [Bytes.afterWord?_eq_some_iff.mpr ⟨t, hshort, rfl⟩]
      exact ⟨_, _, rfl, le_rfl, fun _ => rfl⟩
  | nan t ht =>
    have hnone := afterWord?_infinity ht tail
    rw [Magnitude.text, splitLiteral, hnone _ List.mem_cons_self,
      hnone _ (List.mem_cons_of_mem _ List.mem_cons_self),
      Bytes.afterWord?_eq_some_iff.mpr ⟨t, ht, rfl⟩]
    exact ⟨_, _, rfl, le_rfl, fun _ => rfl⟩
  | decimal d =>
    rw [Magnitude.text, splitLiteral_decimal]
    obtain ⟨⟨l, rest⟩, hsplit⟩ := Option.ne_none_iff_exists'.mp (splitDecimal_ne_none tail d)
    obtain ⟨hrest, d', htext, hl⟩ := splitDecimal_sound hsplit
    refine ⟨l, rest, hsplit, hrest ▸ length_afterDecimal_le tail d, fun heq => ?_⟩
    rw [heq] at htext
    exact hl.symm.trans (literalOf_eq_of_text_eq (List.append_cancel_right htext).symm)

/-- What is split off is as long as any literal in front. -/
theorem endsBefore_of_splitLiteral {m : Magnitude} {rest : Bytes} {l : Literal}
    (h : splitLiteral (m.text ++ rest) = some (l, rest)) : m.EndsBefore rest := by
  rintro m' ⟨tail, htail⟩
  obtain ⟨l', rest', hsplit, hle, -⟩ := splitLiteral_reaches m' tail
  rw [htail, h] at hsplit
  cases hsplit
  have := congrArg List.length htail
  rw [List.length_append, List.length_append] at this
  omega

/-- Without a literal that is split off none stands in front. -/
theorem not_prefix_of_splitLiteral {bs : Bytes} (h : splitLiteral bs = none) (m : Magnitude) :
    ¬ m.text <+: bs := by
  rintro ⟨tail, rfl⟩
  obtain ⟨l, rest, hsplit, -⟩ := splitLiteral_reaches m tail
  rw [hsplit] at h
  cases h

/-- **The longest literal is split off.** -/
theorem splitLiteral_of_endsBefore {m : Magnitude} {tail : Bytes} (h : m.EndsBefore tail) :
    splitLiteral (m.text ++ tail) = some (m.literal, tail) := by
  obtain ⟨l, rest, hsplit, hle, hliteral⟩ := splitLiteral_reaches m tail
  obtain ⟨m', happend, -⟩ := splitLiteral_sound hsplit
  have hle' := h m' ⟨rest, happend.symm⟩
  have hlength := congrArg List.length happend
  rw [List.length_append, List.length_append] at hlength
  obtain ⟨-, hrest⟩ := List.append_inj happend (by omega)
  rw [hsplit, hliteral hrest.symm, hrest]

/-! ## Signs -/

/-- A real as it may be written. -/
structure Written where
  sign : Option Bool
  magnitude : Magnitude

def Written.text (w : Written) : Bytes := signText w.sign ++ w.magnitude.text

/-- It stands in front, and no longer one does. -/
def Written.IsLongestIn (w : Written) (bs : Bytes) : Prop :=
  w.text <+: bs ∧ ∀ w' : Written, w'.text <+: bs → w'.text.length ≤ w.text.length

/-- Behind an optional sign a zero and the letter `x` stand in front. -/
def StartsHexadecimal (bs : Bytes) : Prop :=
  ∃ (sign : Option Bool) (x : UInt8), Bytes.toLower x = 120 ∧ signText sign ++ [48, x] <+: bs

theorem eq_of_toLower_eq_zero {b : UInt8} (h : Bytes.toLower b = 48) : b = 48 := by
  unfold Bytes.toLower at h
  split_ifs at h with hb
  · simp only [UInt8.le_iff_toNat_le, UInt8.reduceToNat] at hb
    simp only [← UInt8.toNat_inj, UInt8.toNat_add, UInt8.reduceToNat] at h
    omega
  · exact h

theorem Hexadecimal.exists_of_scan {bs : Bytes} {p : Pattern} (h : scan bs = some p) :
    ∃ (x : UInt8) (rest : Bytes), Bytes.toLower x = 120 ∧ bs = 48 :: x :: rest ∧
      p = patternAt rest := by
  obtain ⟨rest, hrest, rfl⟩ := Option.map_eq_some_iff.mp h
  obtain ⟨t, ht, rfl⟩ := Bytes.afterWord?_eq_some_iff.mp hrest
  obtain ⟨b, t, rfl, hb, ht⟩ := List.map_eq_cons_iff.mp ht
  obtain ⟨x, t, rfl, hx, ht⟩ := List.map_eq_cons_iff.mp ht
  obtain rfl := List.map_eq_nil_iff.mp ht
  exact ⟨x, rest, hx, by rw [eq_of_toLower_eq_zero hb]; rfl, rfl⟩

theorem startsBare_of_toLower {b c : UInt8} (hb : Bytes.toLower b = c) (hc : c = 105 ∨ c = 110)
    (bs : Bytes) : StartsBare (b :: bs) := by
  rcases hc with rfl | rfl <;> rcases (toLower_eq_iff (by decide)).mp hb with rfl | rfl <;>
    exact startsBare_cons (by decide) (by decide)

theorem startsBare_text (m : Magnitude) (tail : Bytes) : StartsBare (m.text ++ tail) := by
  cases m with
  | infinity t ht =>
    cases t with
    | nil => exact absurd ht (by decide)
    | cons b t =>
      refine startsBare_of_toLower rfl (Or.inl ?_) _
      rcases List.mem_cons.mp ht with h | h
      · exact (List.cons.inj h).1
      · exact (List.cons.inj (List.mem_singleton.mp h)).1
  | nan t ht =>
    cases t with
    | nil => cases ht
    | cons b t => exact startsBare_of_toLower (List.cons.inj ht).1 (Or.inr rfl) _
  | decimal d =>
    obtain ⟨b, bs, htext, hb⟩ := exists_text_decimal d
    rw [Magnitude.text, htext]
    rcases hb with hb | rfl
    · exact startsBare_of_isDigit hb _
    · exact startsBare_cons (by decide) (by decide)

theorem signText_injective : Function.Injective signText := by
  rintro (_ | _ | _) (_ | _ | _) h <;> simp [signText] at h ⊢

/-- A string is a sign and what follows it in one way only. -/
theorem signText_append_inj {sign sign' : Option Bool} {body body' : Bytes}
    (hbody : sign = none → StartsBare body) (hbody' : sign' = none → StartsBare body')
    (h : signText sign ++ body = signText sign' ++ body') : sign = sign' ∧ body = body' := by
  have hsplit := splitSign_signText fun hs => (hbody hs).startsUnsigned
  rw [h, splitSign_signText fun hs => (hbody' hs).startsUnsigned] at hsplit
  have hbodies : body = body' := (Prod.mk.inj hsplit).2.symm
  rw [hbodies] at h
  exact ⟨signText_injective (List.append_cancel_right h), hbodies⟩

section Front

variable {sign : Option Bool} {body : Bytes} (hbody : sign = none → StartsBare body)
include hbody

theorem text_prefix_iff (w : Written) :
    w.text <+: signText sign ++ body ↔ w.sign = sign ∧ w.magnitude.text <+: body := by
  constructor
  · rintro ⟨tail, htail⟩
    rw [Written.text, List.append_assoc] at htail
    obtain ⟨hsign, htext⟩ :=
      signText_append_inj (fun _ => startsBare_text w.magnitude tail) hbody htail
    exact ⟨hsign, tail, htext⟩
  · rintro ⟨rfl, tail, rfl⟩
    exact ⟨tail, List.append_assoc _ _ _⟩

theorem startsHexadecimal_iff :
    StartsHexadecimal (signText sign ++ body) ↔ ∃ p, Hexadecimal.scan body = some p := by
  constructor
  · rintro ⟨sign', x, hx, tail, htail⟩
    rw [List.append_assoc] at htail
    obtain ⟨-, rfl⟩ :=
      signText_append_inj (fun _ => startsBare_of_isDigit (by decide) (x :: tail)) hbody htail
    exact ⟨_, Hexadecimal.scan_text hx tail⟩
  · rintro ⟨p, hp⟩
    obtain ⟨x, rest, hx, rfl, -⟩ := Hexadecimal.exists_of_scan hp
    exact ⟨sign, x, hx, rest, List.append_assoc _ _ _⟩

end Front

/-! ## The number that is read -/

/-- `p` is the pattern of what is written. A decimal number is rounded to nearest, a tie going to
the even pattern. The digits of its exponent count up to a bound, which is felt only if so many
other digits can make up for it. -/
def Magnitude.IsPattern : Magnitude → Pattern → Prop
  | infinity _ _, p => p = Pattern.infinity
  | nan _ _, p => Pattern.infinity < p
  | decimal d, p => IsNearest (d.valueOf d.digits (readExponent d)) p ∧
      (d.exponent.natAbs < 655360 ∨ d.digits.length ≤ 65000 → IsNearest d.value p)

/-- `x` is the number that is written. -/
def Written.Denotes (w : Written) (x : Binary64) : Prop :=
  x.negative = w.sign.getD false ∧ w.magnitude.IsPattern x.pattern

theorem isPattern_literal (m : Magnitude) : m.IsPattern m.literal.pattern := by
  cases m with
  | infinity t ht => rfl
  | nan t ht =>
    change infinity < Pattern.nan
    decide
  | decimal d =>
    refine ⟨?_, isNearest_decimal d⟩
    rw [valueOf_decimal]
    exact isNearest_decimalPattern _ _

theorem pattern_literal_lt (l : Literal) : l.pattern < 2 ^ 63 := by
  cases l with
  | infinity =>
    change infinity < 2 ^ 63
    decide +kernel
  | nan =>
    change Pattern.nan < 2 ^ 63
    decide +kernel
  | decimal digits exponent =>
    exact (isNearest_decimalPattern digits exponent).1.trans_lt (by decide +kernel)

theorem denotes_ofPattern (w : Written) :
    w.Denotes (.ofPattern (w.sign.getD false) w.magnitude.literal.pattern) := by
  obtain ⟨hpattern, hnegative⟩ := Binary64.pattern_ofPattern (w.sign.getD false)
    (pattern_literal_lt w.magnitude.literal)
  refine ⟨hnegative, ?_⟩
  rw [hpattern]
  exact isPattern_literal w.magnitude

section Front

variable {sign : Option Bool} {body : Bytes} (hbody : sign = none → StartsBare body)
include hbody

theorem literalLength_append : literalLength (signText sign ++ body) =
    match splitLiteral body with
    | some (_, rest) => (signText sign ++ body).length - rest.length
    | none => 0 := by
  have hsplit : (Bytes.splitSign (signText sign ++ body)).2 = body := by
    rw [splitSign_signText fun h => (hbody h).startsUnsigned]
  exact congrArg (fun b => match splitLiteral b with
    | some (_, rest) => (signText sign ++ body).length - rest.length
    | none => 0) hsplit

theorem isLongestIn_of_splitLiteral {m : Magnitude} {rest : Bytes} {l : Literal}
    (h : splitLiteral body = some (l, rest)) (hm : body = m.text ++ rest) :
    (⟨sign, m⟩ : Written).IsLongestIn (signText sign ++ body) := by
  refine ⟨(text_prefix_iff hbody _).mpr ⟨rfl, rest, hm.symm⟩, fun w' hw' => ?_⟩
  obtain ⟨hsign, hprefix⟩ := (text_prefix_iff hbody w').mp hw'
  rw [hm] at h hprefix
  have := endsBefore_of_splitLiteral h w'.magnitude hprefix
  rw [Written.text, Written.text, List.length_append, List.length_append, hsign]
  exact Nat.add_le_add_left this _

end Front

/-- **A number that is not rounded to nearest**: one, with an exponent of which the last digit does
not count. A capital letter marks an exponent as well. -/
theorem scanReal_cappedDecimal :
    (⟨none, .decimal cappedDecimal⟩ : Written).IsLongestIn (Bytes.skipBlanks cappedDecimal.text) ∧
      ¬ StartsHexadecimal (Bytes.skipBlanks cappedDecimal.text) ∧
      cappedDecimal.value = 1 ∧ IsNearest cappedDecimal.value 0x3ff0000000000000 ∧
      scanReal cappedDecimal.text = some ⟨0⟩ ∧
      scanReal (Bytes.ofAscii "1E5".toList) = some ⟨0x40f86a0000000000⟩ := by
  have hbare : StartsBare cappedDecimal.text := by
    have h := startsBare_text (.decimal cappedDecimal) []
    rw [List.append_nil] at h
    exact h
  have hfront : (none : Option Bool) = none → StartsBare cappedDecimal.text := fun _ => hbare
  have hskip : Bytes.skipBlanks cappedDecimal.text = cappedDecimal.text :=
    skipBlanks_append Bytes.allBlank_nil hfront
  have hone : IsNearest 1 0x3ff0000000000000 :=
    value_one ▸ isNearest_value (p := 1023 * 2 ^ 52) (by decide)
  rw [hskip, value_cappedDecimal]
  refine ⟨⟨List.prefix_refl _, fun w' hw' => hw'.length_le⟩, fun hhex => ?_, rfl, hone,
    readApart_cappedDecimal.2.2, by decide +kernel⟩
  obtain ⟨p, hp⟩ := (startsHexadecimal_iff hfront).mp hhex
  obtain ⟨x, rest, hx, htext, -⟩ := Hexadecimal.exists_of_scan hp
  exact toLower_ne_of_mem_text cappedDecimal (by rw [htext]; simp) hx

/-- **The longest literal in front of a string is read**: the words for infinity and NaN, and
decimal numbers, with an optional sign. Where none stands, nothing is read. A string that starts
like a hexadecimal literal is always read. -/
theorem scanReal_longest (bs : Bytes) :
    (¬ StartsHexadecimal bs.skipBlanks →
      (scanReal bs = none ∧ literalLength bs.skipBlanks = 0 ∧
          ∀ w : Written, ¬ w.text <+: bs.skipBlanks) ∨
        ∃ w : Written, w.IsLongestIn bs.skipBlanks ∧
          literalLength bs.skipBlanks = w.text.length ∧
          ∃ x, scanReal bs = some x ∧ w.Denotes x) ∧
      (StartsHexadecimal bs.skipBlanks → ∃ x, scanReal bs = some x) := by
  obtain ⟨blanks, sign, body, rfl, hblanks, hbody⟩ := exists_blanks_signText bs
  rw [skipBlanks_append hblanks hbody, startsHexadecimal_iff hbody, scanReal_append hblanks hbody]
  refine ⟨fun hhex => ?_, fun ⟨p, hp⟩ => ⟨_, by rw [hp]⟩⟩
  have hscan : Hexadecimal.scan body = none :=
    Option.eq_none_iff_forall_ne_some.mpr fun p hp => hhex ⟨p, hp⟩
  rw [hscan, literalLength_append hbody]
  cases hsplit : splitLiteral body with
  | none =>
    refine .inl ⟨rfl, rfl, fun w hw => ?_⟩
    exact not_prefix_of_splitLiteral hsplit w.magnitude ((text_prefix_iff hbody w).mp hw).2
  | some result =>
    obtain ⟨l, rest⟩ := result
    obtain ⟨m, hm, rfl⟩ := splitLiteral_sound hsplit
    refine .inr ⟨⟨sign, m⟩, isLongestIn_of_splitLiteral hbody hsplit hm, ?_, _, rfl,
      denotes_ofPattern ⟨sign, m⟩⟩
    simp only [hm, Written.text, List.length_append]
    omega

/-- An exponent without digits is no part of a number, and the letter `x` behind a zero is enough
for one. -/
theorem scanReal_longest_backed_out :
    ¬ StartsHexadecimal (Bytes.ofAscii "-2.5e+x".toList) ∧
      (∃ w : Written, w.IsLongestIn (Bytes.ofAscii "-2.5e+x".toList) ∧ w.text.length = 4 ∧
        w.Denotes ⟨0xc004000000000000⟩) ∧
      StartsHexadecimal (Bytes.ofAscii "+0Xg".toList) ∧
      ∃ x, scanReal (Bytes.ofAscii "\n+0Xg".toList) = some x := by
  have hhex : ¬ StartsHexadecimal (Bytes.ofAscii "-2.5e+x".toList) := by
    have hfront : some true = none → StartsBare [50, 46, 53, 101, 43, 120] := fun h =>
      absurd h (Option.some_ne_none true)
    intro hhex
    obtain ⟨p, hp⟩ := (startsHexadecimal_iff hfront).mp hhex
    obtain ⟨x, rest, -, hbody, -⟩ := Hexadecimal.exists_of_scan hp
    cases hbody
  have hhex' : StartsHexadecimal (Bytes.ofAscii "+0Xg".toList) :=
    ⟨some false, 88, by decide, [103], rfl⟩
  have hlength : literalLength (Bytes.ofAscii "-2.5e+x".toList) = 4 := by decide +kernel
  have hread : scanReal (Bytes.ofAscii " -2.5e+x".toList) = some ⟨0xc004000000000000⟩ := by
    decide +kernel
  refine ⟨hhex, ?_, hhex', (scanReal_longest (Bytes.ofAscii "\n+0Xg".toList)).2 hhex'⟩
  rcases (scanReal_longest (Bytes.ofAscii " -2.5e+x".toList)).1 hhex with
    ⟨hnone, -⟩ | ⟨w, hw, hlong, x, hx, hdenotes⟩
  · rw [hread] at hnone
    cases hnone
  · rw [hread] at hx
    cases hx
    exact ⟨w, hw, hlong.symm.trans hlength, hdenotes⟩

end Numeral

end AdaSupport
