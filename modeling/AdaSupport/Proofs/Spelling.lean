import AdaSupport.Proofs.Digits
import Mathlib.Algebra.Order.Field.Power
import Mathlib.Data.Rat.Cast.Order

/-!
# How reals are spelled

A real is spelled by digits with an optional point among them, and an optional exponent in decimal
digits behind a letter. Decimal and hexadecimal spellings differ in their digits, in the letter, and
in the number that the exponent is a power of.

* `Form`: a kind of spelling, `Form.decimal` or `Form.hexadecimal`.
* `Spelling f`: a spelling, with its `text` and the exact `value` it stands for.
* `EndsBefore`: no longer spelling stands in front of the same text.
* `EndsBefore.digit?_eq_none`, `EndsBefore.ne_point`, `EndsBefore.not_power`: how the text goes on.
-/

namespace AdaSupport.Numeral

/-! ## Signs and exponents -/

/-- An optional sign; `true` is a minus. -/
def signText : Option Bool → Bytes
  | none => []
  | some true => [45]
  | some false => [43]

/-- A number with an optional sign. -/
def signedValue (sign : Option Bool) (n : ℕ) : ℤ := if sign.getD false then -(n : ℤ) else n

/-- No sign stands in front. -/
def StartsUnsigned (bs : Bytes) : Prop := ∀ b ∈ bs.head?, b ≠ 45 ∧ b ≠ 43

/-- Neither a blank nor a sign stands in front. -/
def StartsBare (bs : Bytes) : Prop := ∀ b ∈ bs.head?, Bytes.isBlank b = false ∧ b ≠ 45 ∧ b ≠ 43

theorem StartsBare.startsUnsigned {bs : Bytes} (h : StartsBare bs) : StartsUnsigned bs :=
  fun b hb => (h b hb).2

theorem startsBare_cons {b : UInt8} {bs : Bytes} (hblank : Bytes.isBlank b = false)
    (hsign : b ≠ 45 ∧ b ≠ 43) : StartsBare (b :: bs) := by
  rintro c ⟨⟩
  exact ⟨hblank, hsign⟩

theorem startsBare_of_isDigit {b : UInt8} (h : Bytes.isDigit b = true) (bs : Bytes) :
    StartsBare (b :: bs) := by
  have hb := Bytes.isDigit_iff.mp h
  refine startsBare_cons ?_ ?_
  · simp only [Bytes.isBlank, Bool.or_eq_false_iff, beq_eq_false_iff_ne, Bool.and_eq_false_iff,
      decide_eq_false_iff_not, UInt8.le_iff_toNat_le, ne_eq, ← UInt8.toNat_inj]
    change ¬ b.toNat = 32 ∧ (¬ 9 ≤ b.toNat ∨ ¬ b.toNat ≤ 13)
    omega
  · constructor <;> (rintro rfl; exact absurd h (by decide))

theorem startsBare_of_allDigits {ds : Bytes} (hd : ds.AllDigits) (hne : ds ≠ []) (tail : Bytes) :
    StartsBare (ds ++ tail) := by
  obtain ⟨b, ds, rfl⟩ := List.exists_cons_of_ne_nil hne
  exact startsBare_of_isDigit (hd b List.mem_cons_self) (ds ++ tail)

theorem splitSign_signText {sign : Option Bool} {body : Bytes}
    (h : sign = none → StartsUnsigned body) :
    Bytes.splitSign (signText sign ++ body) = (sign.getD false, body) := by
  match sign with
  | some true => rfl
  | some false => rfl
  | none =>
    cases body with
    | nil => rfl
    | cons b body =>
      obtain ⟨h₁, h₂⟩ := h rfl b rfl
      simp [signText, Bytes.splitSign, h₁, h₂]

theorem skipBlanks_append {blanks : Bytes} (hblanks : blanks.AllBlank) {sign : Option Bool}
    {body : Bytes} (h : sign = none → StartsBare body) :
    Bytes.skipBlanks (blanks ++ (signText sign ++ body)) = signText sign ++ body := by
  rw [Bytes.skipBlanks, List.dropWhile_append_of_pos hblanks]
  match sign with
  | some true => rfl
  | some false => rfl
  | none =>
    cases body with
    | nil => rfl
    | cons b body => exact List.dropWhile_cons_of_neg (by simp [(h rfl b rfl).1])

/-- Every string starts with an optional sign, which is missing only where none stands. -/
theorem exists_signText (bs : Bytes) : ∃ (sign : Option Bool) (body : Bytes),
    bs = signText sign ++ body ∧ (sign = none → StartsUnsigned body) := by
  cases bs with
  | nil => exact ⟨none, [], rfl, fun _ _ h => nomatch h⟩
  | cons b rest =>
    by_cases hminus : b = 45
    · exact ⟨some true, rest, by rw [hminus]; rfl, fun h => nomatch h⟩
    by_cases hplus : b = 43
    · exact ⟨some false, rest, by rw [hplus]; rfl, fun h => nomatch h⟩
    · refine ⟨none, b :: rest, rfl, fun _ => ?_⟩
      rintro c ⟨⟩
      exact ⟨hminus, hplus⟩

/-- The same behind all blanks in front. -/
theorem exists_blanks_signText (bs : Bytes) :
    ∃ (blanks : Bytes) (sign : Option Bool) (body : Bytes), bs = blanks ++ (signText sign ++ body) ∧
      blanks.AllBlank ∧ (sign = none → StartsBare body) := by
  obtain ⟨sign, body, hsplit, hbody⟩ := exists_signText (bs.dropWhile Bytes.isBlank)
  have hhead := List.head?_dropWhile_not Bytes.isBlank bs
  refine ⟨bs.takeWhile Bytes.isBlank, sign, body, ?_, fun b hb => List.mem_takeWhile_imp hb, ?_⟩
  · rw [← hsplit, List.takeWhile_append_dropWhile]
  · rintro rfl b hb
    rw [hsplit] at hhead
    rw [signText, List.nil_append, hb] at hhead
    exact ⟨by simpa using hhead, hbody rfl b hb⟩

/-- An exponent: a letter, which is `mark` or its capital, an optional sign and digits. -/
structure Power (mark : UInt8) where
  letter : UInt8
  sign : Option Bool
  digits : Bytes
  toLower_letter : Bytes.toLower letter = mark
  allDigits : digits.AllDigits
  ne_nil : digits ≠ []

namespace Power

variable {mark : UInt8} (p : Power mark)

def text : Bytes := p.letter :: (signText p.sign ++ p.digits)

/-- The exponent itself. -/
def value : ℤ := signedValue p.sign (Decimal.value p.digits)

/-- The sign and the digits of an exponent are split off as they are. -/
theorem split {tail : Bytes} (ht : ∀ b ∈ tail.head?, Bytes.isDigit b = false) :
    Bytes.splitSign (signText p.sign ++ (p.digits ++ tail)) =
        (p.sign.getD false, p.digits ++ tail) ∧
      Bytes.splitDigits (p.digits ++ tail) = (p.digits, tail) :=
  ⟨splitSign_signText fun _ => (startsBare_of_allDigits p.allDigits p.ne_nil tail).startsUnsigned,
    Bytes.splitDigits_append p.allDigits ht⟩

end Power

/-! ## Spellings -/

/-- A kind of spelling: its digits with their values, the letter of the exponent, and the number
that the exponent is a power of. -/
structure Form where
  radix : ℕ
  digit? : UInt8 → Option ℕ
  mark : UInt8
  base : ℕ
  digit?_lt : ∀ {b d}, digit? b = some d → d < radix
  digit?_zero : digit? 48 = some 0

/-- The value of a decimal digit. -/
def decimalDigit? (b : UInt8) : Option ℕ :=
  if Bytes.isDigit b then some (Bytes.digitValue b) else none

theorem hexValue?_lt {b : UInt8} {d : ℕ} (h : Bytes.hexValue? b = some d) : d < 16 := by
  simp only [Bytes.hexValue?, UInt8.le_iff_toNat_le, UInt8.reduceToNat] at h
  split at h
  · cases h; omega
  split at h
  · cases h; omega
  split at h
  · cases h; omega
  · cases h

def Form.decimal : Form where
  radix := 10
  digit? := decimalDigit?
  mark := 101
  base := 10
  digit?_lt {b d} h := by
    unfold decimalDigit? at h
    split at h
    · next hb =>
      have := Bytes.isDigit_iff.mp hb
      cases h
      unfold Bytes.digitValue
      omega
    · cases h
  digit?_zero := rfl

def Form.hexadecimal : Form where
  radix := 16
  digit? := Bytes.hexValue?
  mark := 112
  base := 2
  digit?_lt := hexValue?_lt
  digit?_zero := rfl

namespace Form

variable (f : Form)

/-- Every byte is a digit. -/
def IsRun (ds : Bytes) : Prop := ∀ b ∈ ds, (f.digit? b).isSome

instance (ds : Bytes) : Decidable (f.IsRun ds) := inferInstanceAs (Decidable (∀ b ∈ ds, _))

/-- The value of a digit, zero for any other byte. -/
def digit (b : UInt8) : ℕ := (f.digit? b).getD 0

/-- The number denoted by a run of digits behind `n`. -/
def runFrom (n : ℕ) (ds : Bytes) : ℕ := ds.foldl (fun n b => f.radix * n + f.digit b) n

/-- The number denoted by a run of digits. -/
def run (ds : Bytes) : ℕ := f.runFrom 0 ds

variable {f}

theorem IsRun.append {ds es : Bytes} : f.IsRun (ds ++ es) ↔ f.IsRun ds ∧ f.IsRun es :=
  List.forall_mem_append

theorem IsRun.digit_lt {ds : Bytes} (h : f.IsRun ds) {b : UInt8} (hb : b ∈ ds) :
    f.digit b < f.radix := by
  obtain ⟨d, hd⟩ := Option.isSome_iff_exists.mp (h b hb)
  rw [digit, hd]
  exact f.digit?_lt hd

theorem runFrom_eq (n : ℕ) (ds : Bytes) :
    f.runFrom n ds = n * f.radix ^ ds.length + f.run ds := by
  unfold run
  induction ds using List.reverseRecOn with
  | nil => simp [runFrom]
  | append_singleton ds b ih =>
    simp only [runFrom, List.foldl_append, List.foldl_cons, List.foldl_nil, List.length_append,
      List.length_singleton] at ih ⊢
    rw [ih, pow_succ]
    ring

theorem run_append (ds es : Bytes) :
    f.run (ds ++ es) = f.run ds * f.radix ^ es.length + f.run es := by
  rw [run, runFrom, List.foldl_append, ← runFrom, ← runFrom, runFrom_eq]
  rfl

theorem run_singleton (b : UInt8) : f.run [b] = f.digit b := by simp [run, runFrom]

theorem run_cons (b : UInt8) (ds : Bytes) :
    f.run (b :: ds) = f.digit b * f.radix ^ ds.length + f.run ds := by
  rw [← List.singleton_append, run_append, run_singleton]

theorem run_lt {ds : Bytes} (h : f.IsRun ds) : f.run ds < f.radix ^ ds.length := by
  induction ds with
  | nil => exact Nat.one_pos
  | cons b ds ih =>
    have hds := ih fun c hc => h c (List.mem_cons_of_mem b hc)
    have hb := h.digit_lt List.mem_cons_self
    calc f.run (b :: ds) < (f.digit b + 1) * f.radix ^ ds.length := by
          rw [run_cons, add_one_mul]; omega
      _ ≤ f.radix ^ (b :: ds).length := by
          rw [List.length_cons, pow_succ, mul_comm]
          exact Nat.mul_le_mul_left _ hb

theorem digit_zero : f.digit 48 = 0 := by rw [digit, f.digit?_zero, Option.getD_some]

theorem run_replicate (k : ℕ) : f.run (List.replicate k 48) = 0 := by
  induction k with
  | zero => rfl
  | succ k ih => rw [List.replicate_succ, run_cons, ih, digit_zero, Nat.zero_mul]

theorem run_dropWhile (ds : Bytes) : f.run (ds.dropWhile (· == 48)) = f.run ds := by
  induction ds with
  | nil => rfl
  | cons b ds ih =>
    by_cases hb : b = 48
    · rw [List.dropWhile_cons_of_pos (by simpa using hb), ih, run_cons, hb, digit_zero,
        Nat.zero_mul, Nat.zero_add]
    · rw [List.dropWhile_cons_of_neg (by simpa using hb)]

end Form

/-- A spelling of a real, without a sign. Without a point there is no fraction, and one of the
digits may stand in front of the point or behind it. -/
structure Spelling (f : Form) where
  whole : Bytes
  fraction : Option Bytes
  power : Option (Power f.mark)
  isRun : f.IsRun (whole ++ fraction.getD [])
  ne_nil : whole ++ fraction.getD [] ≠ []

/-- The point and the digits behind it. -/
def pointText : Option Bytes → Bytes
  | none => []
  | some ds => 46 :: ds

def powerText {mark : UInt8} : Option (Power mark) → Bytes
  | none => []
  | some p => p.text

namespace Spelling

variable {f : Form} (l : Spelling f)

def text : Bytes := l.whole ++ (pointText l.fraction ++ powerText l.power)

/-- All digits of the number, from both sides of the point. -/
def digits : Bytes := l.whole ++ l.fraction.getD []

/-- How many digits stand behind the point. -/
def places : ℕ := (l.fraction.getD []).length

def exponent : ℤ := (l.power.map Power.value).getD 0

/-- The number that is spelled, with the given digits and the given exponent in place of its own. -/
def valueOf (ds : Bytes) (e : ℤ) : ℚ :=
  f.run ds * (f.radix : ℚ) ^ (-(l.places : ℤ)) * (f.base : ℚ) ^ e

/-- **The exact number that is spelled.** -/
def value : ℚ := l.valueOf l.digits l.exponent

theorem places_le_length_digits : l.places ≤ l.digits.length := by
  rw [digits, List.length_append, places]
  exact Nat.le_add_left _ _

/-- The bytes that a spelling is made of. -/
def IsPart (f : Form) (b : UInt8) : Prop :=
  (f.digit? b).isSome ∨ Bytes.isDigit b = true ∨ Bytes.toLower b = f.mark ∨ b = 46 ∨ b = 43 ∨ b = 45

theorem isPart_of_mem_signText {sign : Option Bool} {b : UInt8} (h : b ∈ signText sign) :
    IsPart f b := by
  match sign with
  | none => cases h
  | some true => exact .inr (.inr (.inr (.inr (.inr (List.mem_singleton.mp h)))))
  | some false => exact .inr (.inr (.inr (.inr (.inl (List.mem_singleton.mp h)))))

theorem isPart_of_mem_text {b : UInt8} (h : b ∈ l.text) : IsPart f b := by
  have hrun := Form.IsRun.append.mp l.isRun
  rcases List.mem_append.mp h with h | h
  · exact .inl (hrun.1 b h)
  rcases List.mem_append.mp h with h | h
  · cases hf : l.fraction with
    | none => rw [hf] at h; cases h
    | some ds =>
      rw [hf] at h hrun
      rcases List.mem_cons.mp h with rfl | h
      · exact .inr (.inr (.inr (.inl rfl)))
      · exact .inl (hrun.2 b h)
  · cases hp : l.power with
    | none => rw [hp] at h; cases h
    | some p =>
      rw [hp] at h
      rcases List.mem_cons.mp h with rfl | h
      · exact .inr (.inr (.inl p.toLower_letter))
      rcases List.mem_append.mp h with h | h
      · exact isPart_of_mem_signText h
      · exact .inr (.inl (p.allDigits b h))

/-! ## The end of a spelling -/

/-- No longer spelling stands in front of the text that goes on with `tail`. -/
def EndsBefore (tail : Bytes) : Prop :=
  ∀ l' : Spelling f, l'.text <+: l.text ++ tail → l'.text.length ≤ l.text.length

theorem endsBefore_nil : l.EndsBefore [] := fun l' h => by
  rw [List.append_nil] at h
  exact h.length_le

theorem endsBefore_cons {b : UInt8} (hb : ¬ IsPart f b) (rest : Bytes) :
    l.EndsBefore (b :: rest) := by
  intro l' hpre
  by_contra hlt
  have hmem : b ∈ l'.text := by
    have htake := List.prefix_iff_eq_take.mp hpre
    rw [htake, List.take_append, List.mem_append]
    refine .inr ?_
    rw [show l'.text.length - l.text.length = l'.text.length - l.text.length - 1 + 1 by omega]
    exact List.mem_cons_self
  exact hb (l'.isPart_of_mem_text hmem)

variable {l} {tail : Bytes}

theorem EndsBefore.ne_append (h : l.EndsBefore tail) {cs : Bytes} (hcs : cs <+: tail)
    (hne : cs ≠ []) (l' : Spelling f) : l'.text ≠ l.text ++ cs := by
  intro htext
  have hle := h l' (htext ▸ (List.prefix_append_right_inj l.text).mpr hcs)
  rw [htext, List.length_append] at hle
  have := List.length_pos_iff.mpr hne
  omega

theorem singleton_prefix_of_mem_head? {b : UInt8} (h : b ∈ tail.head?) : [b] <+: tail := by
  cases tail with
  | nil => cases h
  | cons c rest => cases h; exact ⟨rest, rfl⟩

theorem EndsBefore.not_isDigit (h : l.EndsBefore tail) {p : Power f.mark}
    (hp : l.power = some p) : ∀ b ∈ tail.head?, Bytes.isDigit b = false := by
  intro b hb
  by_contra hd
  rw [Bool.not_eq_false] at hd
  let p' : Power f.mark :=
    { p with digits := p.digits ++ [b]
             allDigits := p.allDigits.append (by simpa [Bytes.AllDigits] using hd)
             ne_nil := by simp }
  refine h.ne_append (singleton_prefix_of_mem_head? hb) (List.cons_ne_nil b [])
    { l with power := some p' } ?_
  simp [text, powerText, Power.text, hp, p']

theorem EndsBefore.not_power (h : l.EndsBefore tail) (hp : l.power = none) (p : Power f.mark) :
    ¬ p.text <+: tail := by
  intro hpre
  refine h.ne_append hpre (List.cons_ne_nil _ _) { l with power := some p } ?_
  simp [text, powerText, hp]

/-- Behind a spelling without an exponent a letter is not followed by an exponent. -/
theorem EndsBefore.splitDigits_eq_nil {b : UInt8} {rest : Bytes} (h : l.EndsBefore (b :: rest))
    (hp : l.power = none) (hb : Bytes.toLower b = f.mark) :
    (Bytes.splitDigits (Bytes.splitSign rest).2).1 = [] := by
  by_contra hne
  obtain ⟨sign, body, rfl, hbody⟩ := exists_signText rest
  rw [splitSign_signText hbody] at hne
  obtain ⟨happend, hall, -⟩ := Bytes.splitDigits_spec body
  refine h.not_power hp ⟨b, sign, _, hb, hall, hne⟩ ⟨(Bytes.splitDigits body).2, ?_⟩
  rw [Power.text, List.cons_append, List.append_assoc, happend]

theorem EndsBefore.ne_point (h : l.EndsBefore tail) (hp : l.power = none)
    (hf : l.fraction = none) : ∀ b ∈ tail.head?, b ≠ 46 := by
  rintro b hb rfl
  have hrun := l.isRun
  have hne := l.ne_nil
  rw [hf] at hrun hne
  refine h.ne_append (singleton_prefix_of_mem_head? hb) (List.cons_ne_nil _ _)
    { l with fraction := some [], isRun := hrun, ne_nil := hne } ?_
  simp [text, powerText, pointText, hp, hf]

theorem EndsBefore.digit?_eq_none (h : l.EndsBefore tail) (hp : l.power = none) :
    ∀ b ∈ tail.head?, f.digit? b = none := by
  intro b hb
  by_contra hd
  have hb' : f.IsRun [b] := by simpa [Form.IsRun] using Option.ne_none_iff_isSome.mp hd
  have hrun := l.isRun
  have hpre := singleton_prefix_of_mem_head? hb
  cases hf : l.fraction with
  | none =>
    rw [hf, Option.getD_none, List.append_nil] at hrun
    refine h.ne_append hpre (List.cons_ne_nil _ _)
      { l with whole := l.whole ++ [b], fraction := none
               isRun := by simpa using Form.IsRun.append.mpr ⟨hrun, hb'⟩
               ne_nil := by simp } ?_
    simp [text, powerText, pointText, hp, hf]
  | some ds =>
    rw [hf, Option.getD_some] at hrun
    refine h.ne_append hpre (List.cons_ne_nil _ _)
      { l with fraction := some (ds ++ [b])
               isRun := by
                rw [Option.getD_some, ← List.append_assoc]
                exact Form.IsRun.append.mpr ⟨hrun, hb'⟩
               ne_nil := by simp } ?_
    simp [text, powerText, pointText, hp, hf]

end Spelling

end AdaSupport.Numeral
