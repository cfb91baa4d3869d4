import AdaSupport.Proofs.LineStorage
import AdaSupport.Proofs.LongestLiteral

/-!
# Scanners whose accesses are checked

The scanners of numbers are written once more with positions in a string and numbers in words. There
is no result when a part of a string is taken that is not there, when a position or a number leaves
its word, or when a byte that is no digit is taken for one. On strings of less than `2 ^ 60` bytes
there always is one, the result of the plain scanner.

* `Bytes.behind?`, `word?`, `position?`: a part of a string, a number and a position, if they are in
  range.
* `cappedValue_eq`: the value of a run of digits, cut after each digit.
* `signedFront`, `signedRun_eq`: the number in front of a string; **`scanInteger_eq`**: the integer.
* `wordLength`, `fractionEnd`, `exponentEnd`: the parts of a literal by their positions;
  **`literalLength_eq`**: the length of a literal.
-/

namespace AdaSupport

namespace Bytes

/-! ## Parts of a string -/

/-- How many bytes of a class stand in front. -/
def runLength (q : UInt8 → Bool) (bs : Bytes) : ℕ := (bs.takeWhile q).length

/-- The bytes behind the first `n`, if there are so many. -/
def behind? (bs : Bytes) (n : ℕ) : Option Bytes :=
  if n ≤ bs.length then some (bs.drop n) else none

/-- The length of a sign, where a byte is one. -/
def signLength (b : Option UInt8) : ℕ := if b = some 43 ∨ b = some 45 then 1 else 0

section Suffix

variable {rest body : Bytes} (h : rest <:+ body)
include h

/-- What is left of a string stands behind as many bytes as it is shorter. -/
theorem behind?_of_suffix : behind? body (body.length - rest.length) = some rest := by
  rw [behind?, if_pos (Nat.sub_le _ _), ← List.suffix_iff_eq_drop.mp h]

theorem getElem?_of_suffix : body[body.length - rest.length]? = rest.head? := by
  rw [← List.head?_drop, ← List.suffix_iff_eq_drop.mp h]

end Suffix

/-- One byte further on. -/
theorem suffix_of_cons {b : UInt8} {tail body : Bytes} (h : b :: tail <:+ body) :
    tail <:+ body ∧ body.length - (b :: tail).length + 1 = body.length - tail.length := by
  have hle := h.length_le
  refine ⟨(List.suffix_cons b tail).trans h, ?_⟩
  rw [List.length_cons] at hle ⊢
  omega

theorem behind?_runLength (q : UInt8 → Bool) (bs : Bytes) :
    behind? bs (runLength q bs) = some (bs.dropWhile q) := by
  have hlength : runLength q bs = bs.length - (bs.dropWhile q).length := by
    have hsplit := congrArg List.length (List.takeWhile_append_dropWhile (p := q) (l := bs))
    rw [List.length_append] at hsplit
    unfold runLength
    omega
  rw [hlength, behind?_of_suffix (List.dropWhile_suffix q)]

theorem front?_runLength (q : UInt8 → Bool) (bs : Bytes) :
    front? bs (runLength q bs) = some (bs.takeWhile q) := by
  have hprefix := List.takeWhile_prefix (l := bs) q
  rw [runLength, front?_of_le hprefix.length_le, ← List.prefix_iff_eq_take.mp hprefix]

theorem splitDigits_fst (bs : Bytes) : (splitDigits bs).1 = bs.takeWhile isDigit := by
  rw [splitDigits, List.span_eq_takeWhile_dropWhile]

theorem runLength_isDigit (bs : Bytes) : runLength isDigit bs = (splitDigits bs).1.length := by
  rw [splitDigits_fst, runLength]

theorem runLength_isDigit_add (bs : Bytes) :
    runLength isDigit bs + (splitDigits bs).2.length = bs.length := by
  rw [runLength_isDigit, ← List.length_append, (splitDigits_spec bs).1]

theorem behind?_signLength (bs : Bytes) :
    behind? bs (signLength bs[0]?) = some (splitSign bs).2 ∧
      signLength bs[0]? + (splitSign bs).2.length = bs.length := by
  cases bs with
  | nil => exact ⟨rfl, rfl⟩
  | cons b rest =>
    rw [List.getElem?_cons_zero, splitSign]
    split_ifs with hminus hplus
    · rw [hminus]
      exact ⟨rfl, Nat.add_comm _ _⟩
    · rw [hplus]
      exact ⟨rfl, Nat.add_comm _ _⟩
    · have hsign : signLength (some b) = 0 := by simp [signLength, hminus, hplus]
      rw [hsign]
      exact ⟨rfl, Nat.zero_add _⟩

end Bytes

namespace Numeral

namespace Checked

/-! ## Words -/

/-- The number lies strictly inside the range of signed words of 64 bits. -/
def InWord (n : ℤ) : Prop := -2 ^ 63 < n ∧ n < 2 ^ 63 - 1

instance (n : ℤ) : Decidable (InWord n) := inferInstanceAs (Decidable (_ ∧ _))

/-- A number, if it lies strictly inside the range of signed words of 64 bits. -/
def word? (n : ℤ) : Option ℤ := if InWord n then some n else none

/-- A position, if it fits into an unsigned word of 64 bits. -/
def position? (n : ℕ) : Option ℕ := if n < 2 ^ 64 then some n else none

/-- The distance of a byte from the digit zero, if it is not below. -/
def digit? (b : UInt8) : Option UInt8 := if 48 ≤ b then some (b - 48) else none

theorem inWord_of_le {n : ℤ} (h : n.natAbs ≤ 2 ^ 62 + 2 ^ 61) : InWord n := by
  unfold InWord
  omega

theorem word?_of_le {n : ℤ} (h : n.natAbs ≤ 2 ^ 62 + 2 ^ 61) : word? n = some n :=
  if_pos (inWord_of_le h)

theorem position?_of_lt {n : ℕ} (h : n < 2 ^ 64) : position? n = some n := if_pos h

theorem digit?_of_isDigit {b : UInt8} (h : Bytes.isDigit b = true) :
    ∃ d, digit? b = some d ∧ d.toNat = Bytes.digitValue b ∧ Bytes.digitValue b < 10 := by
  obtain ⟨hlow, hhigh⟩ := Bytes.isDigit_iff.mp h
  have hle : (48 : UInt8) ≤ b := UInt8.le_iff_toNat_le.mpr hlow
  refine ⟨b - 48, if_pos hle, UInt8.toNat_sub_of_le b 48 hle, ?_⟩
  unfold Bytes.digitValue
  omega

/-! ## Numbers with a sign -/

/-- Ten times a number and one more digit, cut at `cap`. -/
def pushDigit (cap : ℕ) (n : ℤ) (b : UInt8) : Option ℤ := do
  let tens ← word? (n * 10)
  let d ← digit? b
  let sum ← word? (tens + d.toNat)
  word? (min sum cap)

/-- The value of a run of digits, cut at `cap` after each of them. -/
def cappedValue (cap : ℕ) (ds : Bytes) : Option ℤ := ds.foldlM (pushDigit cap) 0

/-- A sign and what follows it. -/
def splitSign (bs : Bytes) : Option (Bool × Bytes) :=
  match bs[0]? with
  | some b =>
    if b = 45 then (bs.behind? 1).map (true, ·)
    else if b = 43 then (bs.behind? 1).map (false, ·)
    else some (false, bs)
  | none => some (false, bs)

/-- A number with its sign. -/
def signed (negative : Bool) (n : ℤ) : Option ℤ := if negative then word? (-n) else some n

/-- The number with a sign in front of a string, cut at `cap`, if there is a digit. -/
def signedRun (cap : ℕ) (bs : Bytes) : Option (Option ℤ) := do
  let (negative, body) ← splitSign bs
  if body.runLength Bytes.isDigit = 0 then some none
  else do
    let ds ← body.front? (body.runLength Bytes.isDigit)
    let n ← cappedValue cap ds
    let value ← signed negative n
    some (some value)

/-- The integer in front of a string, if a digit follows the blanks and the sign. -/
def scanInteger (bs : Bytes) : Option (Option Int32) := do
  let bs ← bs.behind? (bs.runLength Bytes.isBlank)
  let value ← signedRun 2147483648 bs
  some (value.map Binary64.clampInteger)

section Capped

variable {cap : ℕ} (hcap : cap ≤ 2 ^ 32)
include hcap

theorem pushDigit_eq {n : ℕ} (hn : n ≤ cap) {b : UInt8} (hb : Bytes.isDigit b = true) :
    pushDigit cap n b = some ((min (10 * n + Bytes.digitValue b) cap : ℕ) : ℤ) := by
  obtain ⟨d, hd, hvalue, hlt⟩ := digit?_of_isDigit hb
  rw [pushDigit, Option.bind_eq_bind, word?_of_le (by omega), Option.bind_some, hd,
    Option.bind_eq_bind, Option.bind_some, hvalue, word?_of_le (by omega), Option.bind_some,
    word?_of_le (by omega)]
  congr 1
  omega

/-- **No sum on the way leaves its word.** -/
theorem cappedValue_eq {ds : Bytes} (hd : ds.AllDigits) :
    cappedValue cap ds = some (Decimal.cappedValue cap ds : ℤ) := by
  suffices hfold : ∀ n : ℕ, n ≤ cap → ds.foldlM (pushDigit cap) (n : ℤ) =
      some ((ds.foldl (fun n b => min (10 * n + Bytes.digitValue b) cap) n : ℕ) : ℤ) from
    hfold 0 (Nat.zero_le _)
  induction ds with
  | nil => exact fun n hn => rfl
  | cons b ds ih =>
    intro n hn
    rw [List.foldlM_cons, pushDigit_eq hcap hn (hd b List.mem_cons_self), Option.bind_eq_bind,
      Option.bind_some, ih (fun c hc => hd c (List.mem_cons_of_mem b hc)) _ (Nat.min_le_right _ _),
      List.foldl_cons]

end Capped

theorem splitSign_eq (bs : Bytes) : splitSign bs = some bs.splitSign := by
  cases bs with
  | nil => rfl
  | cons b rest =>
    unfold splitSign Bytes.splitSign
    rw [List.getElem?_cons_zero]
    dsimp only
    split_ifs <;> rfl

end Checked

/-- The number with a sign in front of a string, cut at `cap`, if there is a digit. -/
def signedFront (cap : ℕ) (bs : Bytes) : Option ℤ :=
  let (negative, body) := bs.splitSign
  let ds := body.splitDigits.1
  if ds = [] then none
  else some (if negative then -(Decimal.cappedValue cap ds : ℤ) else Decimal.cappedValue cap ds)

theorem natAbs_le_of_signedFront {cap : ℕ} {bs : Bytes} {n : ℤ} (h : signedFront cap bs = some n) :
    n.natAbs ≤ cap := by
  unfold signedFront at h
  dsimp only at h
  rw [Decimal.cappedValue_eq_min] at h
  split_ifs at h <;> cases h <;> omega

theorem scanInteger_eq_map (bs : Bytes) :
    scanInteger bs = (signedFront 2147483648 bs.skipBlanks).map Binary64.clampInteger := by
  unfold scanInteger signedFront
  dsimp only
  split_ifs <;> rfl

namespace Checked

theorem signedRun_eq {cap : ℕ} (hcap : cap ≤ 2 ^ 32) (bs : Bytes) :
    signedRun cap bs = some (signedFront cap bs) := by
  rw [signedRun, splitSign_eq, Option.bind_eq_bind, Option.bind_some, signedFront]
  generalize bs.splitSign = r
  obtain ⟨negative, body⟩ := r
  dsimp only
  obtain ⟨-, hdigits, -⟩ := Bytes.splitDigits_spec body
  have hvalue := Decimal.cappedValue_eq_min cap body.splitDigits.1
  by_cases hnil : body.splitDigits.1 = []
  · have hzero : body.runLength Bytes.isDigit = 0 := by rw [Bytes.runLength_isDigit, hnil]; rfl
    rw [if_pos hzero, if_pos hnil]
  · have hpos : body.runLength Bytes.isDigit ≠ 0 := by
      rw [Bytes.runLength_isDigit]
      exact (List.length_pos_iff.mpr hnil).ne'
    rw [if_neg hpos, if_neg hnil, Bytes.front?_runLength, Option.bind_eq_bind, Option.bind_some,
      ← Bytes.splitDigits_fst, cappedValue_eq hcap hdigits, Option.bind_eq_bind, Option.bind_some,
      signed, word?_of_le (by omega)]
    split_ifs <;> rfl

/-- **The integer scanner stays in range.** -/
theorem scanInteger_eq (bs : Bytes) : scanInteger bs = some (Numeral.scanInteger bs) := by
  rw [scanInteger, Bytes.behind?_runLength, Option.bind_eq_bind, Option.bind_some,
    signedRun_eq (by decide), Option.bind_eq_bind, Option.bind_some, scanInteger_eq_map]
  rfl

/-! ## Literals by their positions -/

/-- The length of the first of the words that stands in front of a string. -/
def wordLength (body : Bytes) : List Bytes → Option (Option ℕ)
  | [] => some none
  | word :: words =>
    if word.length ≤ body.length then do
      let front ← body.front? word.length
      if front.map Bytes.toLower = word then some (some word.length) else wordLength body words
    else wordLength body words

/-- The number of digits behind a point at a position, and the position behind them. -/
def fractionEnd (body : Bytes) (pos : ℕ) : Option (ℕ × ℕ) :=
  if body[pos]? = some 46 then do
    let next ← position? (pos + 1)
    let tail ← body.behind? next
    let after ← position? (pos + (1 + tail.runLength Bytes.isDigit))
    some (tail.runLength Bytes.isDigit, after)
  else some (0, pos)

/-- The position behind an exponent at a position. One without digits is not passed over. -/
def exponentEnd (body : Bytes) (pos : ℕ) : Option ℕ :=
  if body[pos]? = some 101 ∨ body[pos]? = some 69 then do
    let next ← position? (pos + 1)
    let start ← position? (next + Bytes.signLength body[next]?)
    let tail ← body.behind? (min start body.length)
    if 0 < tail.runLength Bytes.isDigit then
      position? (pos + (1 + Bytes.signLength body[next]? + tail.runLength Bytes.isDigit))
    else some pos
  else some pos

/-- The position behind a decimal literal, zero when there is none. -/
def decimalEnd (body : Bytes) : Option ℕ := do
  let whole := body.runLength Bytes.isDigit
  let (fraction, pos) ← fractionEnd body whole
  let digits ← position? (whole + fraction)
  if digits = 0 then some 0 else exponentEnd body pos

/-- The words that stand for reals. -/
def words : List Bytes := infinityWords ++ [Bytes.ofAscii ['n', 'a', 'n']]

/-- The length of the numeric part in front of a string, its sign included; zero when there is
none. -/
def literalLength (bs : Bytes) : Option ℕ := do
  let sign := Bytes.signLength bs[0]?
  let body ← bs.behind? sign
  match ← wordLength body words with
  | some n => position? (sign + n)
  | none =>
    let n ← decimalEnd body
    if n = 0 then some 0 else position? (sign + n)

theorem wordLength_cons (body word : Bytes) (words : List Bytes) :
    wordLength body (word :: words) =
      if (body.afterWord? word).isSome then some (some word.length) else wordLength body words := by
  rw [wordLength, Bytes.afterWord?]
  by_cases hle : word.length ≤ body.length
  · rw [if_pos hle, Bytes.front?_of_le hle, Option.bind_eq_bind, Option.bind_some]
    split_ifs with hword <;> simp_all
  · -- what is too short is not the word
    have hne : (body.take word.length).map Bytes.toLower ≠ word := by
      intro h
      have hlength := congrArg List.length h
      rw [List.length_map, List.length_take] at hlength
      omega
    rw [if_neg hle, if_neg hne]
    rfl

section Positions

variable {rest body : Bytes} (hlength : body.length < 2 ^ 60) (h : rest <:+ body)
include hlength h

theorem fractionEnd_eq : fractionEnd body (body.length - rest.length) =
    some ((splitFraction rest).1.length, body.length - (splitFraction rest).2.length) := by
  rw [fractionEnd, Bytes.getElem?_of_suffix h]
  cases rest with
  | nil => rfl
  | cons b tail =>
    obtain ⟨htail, hnext⟩ := Bytes.suffix_of_cons h
    rw [List.head?_cons, splitFraction]
    by_cases hb : b = 46
    · have hdigits := Bytes.runLength_isDigit_add tail
      have hle := htail.length_le
      rw [if_pos (congrArg some hb), if_pos hb, hnext, position?_of_lt (by omega),
        Option.bind_eq_bind, Option.bind_some, Bytes.behind?_of_suffix htail, Option.bind_eq_bind,
        Option.bind_some, ← Nat.add_assoc, hnext, position?_of_lt (by omega), Option.bind_some,
        ← Bytes.runLength_isDigit]
      congr 2
      omega
    · rw [if_neg fun h => hb (Option.some.inj h), if_neg hb]
      rfl

theorem exponentEnd_eq : exponentEnd body (body.length - rest.length) =
    some (body.length - (splitExponent rest).2.length) := by
  have hle := h.length_le
  rw [exponentEnd, Bytes.getElem?_of_suffix h]
  cases rest with
  | nil => rfl
  | cons b tail =>
    obtain ⟨htail, hnext⟩ := Bytes.suffix_of_cons h
    rw [List.head?_cons, splitExponent]
    by_cases hb : b = 101 ∨ b = 69
    · have htailLength := htail.length_le
      -- the digits start behind the letter and the sign
      obtain ⟨hbehind, hsign⟩ := Bytes.behind?_signLength tail
      have hbody : (Bytes.splitSign tail).2 <:+ body := by
        refine List.IsSuffix.trans ⟨tail.take (Bytes.signLength tail[0]?), ?_⟩ htail
        rw [Bytes.behind?, if_pos (by omega)] at hbehind
        rw [← Option.some.inj hbehind, List.take_append_drop]
      have hdigits := Bytes.runLength_isDigit_add (Bytes.splitSign tail).2
      have hhead : body[body.length - tail.length]? = tail[0]? := by
        rw [Bytes.getElem?_of_suffix htail, List.head?_eq_getElem?]
      have hstart : min (body.length - tail.length + Bytes.signLength tail[0]?) body.length =
          body.length - (Bytes.splitSign tail).2.length := by omega
      rw [List.length_cons] at hle
      rw [if_pos (hb.imp (congrArg some) (congrArg some)), hnext, position?_of_lt (by omega),
        Option.bind_eq_bind, Option.bind_some, hhead, position?_of_lt (by omega), Option.bind_some,
        hstart, Bytes.behind?_of_suffix hbody, Option.bind_eq_bind, Option.bind_some]
      dsimp only
      rw [Bytes.runLength_isDigit] at hdigits ⊢
      by_cases hnil : (Bytes.splitDigits (Bytes.splitSign tail).2).1 = []
      · simp [hnil]
      · have hpos := List.length_pos_iff.mpr hnil
        rw [if_pos hpos, if_pos ⟨hb, hnil⟩, List.length_cons, position?_of_lt (by omega)]
        dsimp only
        congr 1
        omega
    · have hletter : ¬ (some b = some 101 ∨ some b = some 69) := fun h =>
        hb (h.imp Option.some.inj Option.some.inj)
      rw [if_neg hletter]
      dsimp only
      rw [if_neg fun h => hb h.1]

end Positions

theorem decimalEnd_eq {body : Bytes} (hlength : body.length < 2 ^ 60) : decimalEnd body =
    some (match splitDecimal body with
      | some (_, rest) => body.length - rest.length
      | none => 0) := by
  have hdigits := Bytes.runLength_isDigit_add body
  have hwhole : body.runLength Bytes.isDigit = body.length - (Bytes.splitDigits body).2.length := by
    omega
  have hsuffix := Bytes.splitDigits_suffix body
  have hfraction := (splitFraction_suffix (Bytes.splitDigits body).2).trans hsuffix
  have hcount : (splitFraction (Bytes.splitDigits body).2).1.length ≤ body.length := by
    obtain ⟨fraction, hsplit, hget, -⟩ := exists_pointText (Bytes.splitDigits body).2
    have hpoint : (fraction.getD []).length ≤ (pointText fraction).length := by
      cases fraction <;> simp [pointText]
    have htotal := congrArg List.length hsplit
    rw [List.length_append] at htotal
    have hle := hsuffix.length_le
    rw [hget]
    omega
  rw [decimalEnd, hwhole, fractionEnd_eq hlength hsuffix, Option.bind_eq_bind, Option.bind_some,
    ← hwhole]
  dsimp only
  rw [position?_of_lt (by omega), Option.bind_eq_bind, Option.bind_some, Bytes.runLength_isDigit,
    exponentEnd_eq hlength hfraction, splitDecimal]
  dsimp only
  by_cases hnil : (Bytes.splitDigits body).1 = [] ∧
      (splitFraction (Bytes.splitDigits body).2).1 = []
  · rw [if_pos hnil, if_pos (by rw [hnil.1, hnil.2]; rfl)]
  · have hcount' : (Bytes.splitDigits body).1.length +
        (splitFraction (Bytes.splitDigits body).2).1.length ≠ 0 := by
      intro hzero
      obtain ⟨hdigits, hpart⟩ := Nat.add_eq_zero_iff.mp hzero
      exact hnil ⟨List.length_eq_zero_iff.mp hdigits, List.length_eq_zero_iff.mp hpart⟩
    rw [if_neg hnil, if_neg hcount']

theorem length_of_afterWord? {body word rest : Bytes} (h : body.afterWord? word = some rest) :
    word.length + rest.length = body.length := by
  obtain ⟨t, rfl, rfl⟩ := Bytes.afterWord?_eq_some_iff.mp h
  rw [List.length_map, List.length_append]

/-- **The length of a literal is found in range.** -/
theorem literalLength_eq {bs : Bytes} (hlength : bs.length < 2 ^ 60) :
    literalLength bs = some (Numeral.literalLength bs) := by
  obtain ⟨hbehind, hsign⟩ := Bytes.behind?_signLength bs
  rw [literalLength, hbehind, Option.bind_eq_bind, Option.bind_some, Numeral.literalLength]
  generalize (Bytes.splitSign bs).2 = body at hsign ⊢
  generalize Bytes.signLength bs[0]? = sign at hsign ⊢
  -- the position behind a part of the body, as seen from the whole string
  have hposition : ∀ (n : ℕ) (rest : Bytes), n + rest.length = body.length →
      position? (sign + n) = some (bs.length - rest.length) := by
    intro n rest hn
    rw [position?_of_lt (by omega)]
    congr 1
    omega
  rw [words, infinityWords, List.cons_append, List.cons_append, List.nil_append, wordLength_cons,
    wordLength_cons, wordLength_cons, splitLiteral]
  cases hlong : body.afterWord? (Bytes.ofAscii ['i', 'n', 'f', 'i', 'n', 'i', 't', 'y']) with
  | some rest => exact hposition _ rest (length_of_afterWord? hlong)
  | none =>
    cases hshort : body.afterWord? (Bytes.ofAscii ['i', 'n', 'f']) with
    | some rest => exact hposition _ rest (length_of_afterWord? hshort)
    | none =>
      cases hnan : body.afterWord? (Bytes.ofAscii ['n', 'a', 'n']) with
      | some rest => exact hposition _ rest (length_of_afterWord? hnan)
      | none =>
        change (decimalEnd body).bind _ = _
        rw [decimalEnd_eq (by omega), Option.bind_some]
        dsimp only
        cases hdecimal : splitDecimal body with
        | none => rfl
        | some result =>
          obtain ⟨l, rest⟩ := result
          obtain ⟨-, d, htext, -⟩ := splitDecimal_sound hdecimal
          obtain ⟨b, bs', hd, -⟩ := exists_text_decimal d
          have hsplit := congrArg List.length htext
          rw [List.length_append, hd, List.length_cons] at hsplit
          have hpos : body.length - rest.length ≠ 0 := by omega
          have hend : body.length - rest.length + rest.length = body.length := by omega
          dsimp only
          rw [if_neg hpos, hposition _ rest hend]

end Checked

end Numeral

end AdaSupport
