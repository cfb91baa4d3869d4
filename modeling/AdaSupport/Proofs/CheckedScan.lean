import AdaSupport.Proofs.CheckedAccess
import AdaSupport.Proofs.EncodedText

/-!
# Scanners of reals whose accesses are checked

The significand of a hexadecimal literal is read byte by byte into a word of 64 bits. What is read
of a decimal literal is handed on as text.

* `shiftIn?`: a word with one more digit, if no bit is lost.
* `Accumulator.step`, `readDigits`: one byte of a significand, and all of them.
* `Reaches`: what is read up to a position; `Sound`: the invariant of reading.
* **`Reaches.mantissa_eq`**: the word holds the first sixteen significant digits.
* `Hexadecimal.scan_eq`: a hexadecimal literal is read in range.
* `parse?`: the number of a text that is a literal as a whole.
* `exists_written`: what is split off is such a text.
* **`scanners_in_range`**: all scanners stay in range.
-/

namespace AdaSupport.Numeral

namespace Checked.Hexadecimal

open Numeral.Hexadecimal

/-! ## Words -/

/-- A word with one more hexadecimal digit, if the digits in it keep all their bits. -/
def shiftIn? (m : UInt64) (d : ℕ) : Option UInt64 :=
  if (m <<< 4) >>> 4 = m then some ((m <<< 4) ||| UInt64.ofNat d) else none

theorem shiftRight_eq_zero_iff {m : UInt64} : m >>> 60 = 0 ↔ m.toNat < 2 ^ 60 := by
  rw [← UInt64.toNat_inj, UInt64.toNat_shiftRight, Nat.shiftRight_eq_div_pow]
  exact Nat.div_eq_zero_iff_lt (by decide)

theorem shiftIn?_eq {m : UInt64} (hm : m.toNat < 2 ^ 60) {d : ℕ} (hd : d < 16) :
    ∃ m', shiftIn? m d = some m' ∧ m'.toNat = 16 * m.toNat + d := by
  have hshift : (m <<< 4).toNat = 2 ^ 4 * m.toNat := by
    rw [UInt64.toNat_shiftLeft]
    change m.toNat <<< 4 % 2 ^ 64 = _
    rw [Nat.shiftLeft_eq, Nat.mod_eq_of_lt (by omega), Nat.mul_comm]
  have hback : (m <<< 4) >>> 4 = m := by
    rw [← UInt64.toNat_inj, UInt64.toNat_shiftRight, hshift, Nat.shiftRight_eq_div_pow]
    exact Nat.mul_div_cancel_left _ (by decide)
  refine ⟨_, if_pos hback, ?_⟩
  have hdigit : (UInt64.ofNat d).toNat = d := Nat.mod_eq_of_lt (show d < 2 ^ 64 by omega)
  rw [UInt64.toNat_or, hshift, hdigit, ← Nat.two_pow_add_eq_or_of_lt hd]

/-- The first of sixteen digits would be lost to one more. -/
example : shiftIn? 0x1000000000000000 0 = none := by decide

/-! ## One byte -/

/-- What has been read of a significand. -/
structure Accumulator where
  mantissa : UInt64
  exponent : ℤ
  anyDigit : Bool
  pastPoint : Bool
  deriving DecidableEq, Repr

namespace Accumulator

def start : Accumulator := ⟨0, 0, false, false⟩

def significand (t : Accumulator) : Significand := ⟨t.mantissa.toNat, t.exponent, t.pastPoint⟩

/-- One more byte; the second result is missing where the significand ends. -/
def step (t : Accumulator) (b : UInt8) : Option (Option Accumulator) :=
  if b = 46 ∧ t.pastPoint = false then some (some { t with pastPoint := true })
  else
    match Bytes.hexValue? b with
    | none => some none
    | some d =>
      if t.mantissa >>> 60 = 0 then do
        let m ← shiftIn? t.mantissa d
        let e ← if t.pastPoint then word? (t.exponent - 4) else some t.exponent
        some (some ⟨m, e, true, t.pastPoint⟩)
      else do
        let e ← if t.pastPoint then some t.exponent else word? (t.exponent + 4)
        some (some ⟨t.mantissa, e, true, t.pastPoint⟩)

variable {t : Accumulator}

theorem step_digit (he : t.exponent.natAbs ≤ 2 ^ 62) {b : UInt8} {d : ℕ}
    (hd : Bytes.hexValue? b = some d) : ∃ t', t.step b = some (some t') ∧ t'.anyDigit = true ∧
      t'.significand = t.significand.push d := by
  have hb : ¬ (b = 46 ∧ t.pastPoint = false) := by
    rintro ⟨rfl, -⟩
    cases hd
  rw [step, if_neg hb, hd]
  dsimp only
  rw [Significand.push, twoTo_eq_pow]
  have hdown : word? (t.exponent - 4) = some (t.exponent - 4) := word?_of_le (by omega)
  have hup : word? (t.exponent + 4) = some (t.exponent + 4) := word?_of_le (by omega)
  by_cases hroom : t.mantissa.toNat < 2 ^ 60
  · obtain ⟨m, hm, hvalue⟩ := shiftIn?_eq hroom (hexValue?_lt hd)
    rw [if_pos (shiftRight_eq_zero_iff.mpr hroom), hm, hdown, Option.bind_eq_bind, Option.bind_some]
    refine ⟨⟨m, if t.pastPoint then t.exponent - 4 else t.exponent, true, t.pastPoint⟩, ?_, rfl, ?_⟩
    · split_ifs <;> rfl
    · rw [significand, significand, if_pos hroom, hvalue]
  · rw [if_neg fun h => hroom (shiftRight_eq_zero_iff.mp h), hup]
    refine ⟨⟨t.mantissa, if t.pastPoint then t.exponent else t.exponent + 4, true, t.pastPoint⟩, ?_,
      rfl, ?_⟩
    · split_ifs <;> rfl
    · rw [significand, significand, if_neg hroom]

/-- What a byte does to a significand: it ends it, it is the point, or it is one more digit. -/
theorem step_cases (he : t.exponent.natAbs ≤ 2 ^ 62) (b : UInt8) :
    (t.step b = some none ∧ Bytes.hexValue? b = none ∧ ¬ (b = 46 ∧ t.pastPoint = false)) ∨
      (b = 46 ∧ t.pastPoint = false ∧ t.step b = some (some { t with pastPoint := true })) ∨
      ∃ d t', Bytes.hexValue? b = some d ∧ t.step b = some (some t') ∧ t'.anyDigit = true ∧
        t'.significand = t.significand.push d := by
  by_cases hb : b = 46 ∧ t.pastPoint = false
  · exact .inr (.inl ⟨hb.1, hb.2, if_pos hb⟩)
  · cases hd : Bytes.hexValue? b with
    | none => exact .inl ⟨by rw [step, if_neg hb, hd], rfl, hb⟩
    | some d =>
      obtain ⟨t', hstep, hany, hpush⟩ := step_digit he hd
      exact .inr (.inr ⟨d, t', rfl, hstep, hany, hpush⟩)

theorem step_ne_none (he : t.exponent.natAbs ≤ 2 ^ 62) (b : UInt8) : t.step b ≠ none := by
  rcases step_cases he b with ⟨hstep, -⟩ | ⟨-, -, hstep⟩ | ⟨d, t', -, hstep, -⟩ <;> rw [hstep] <;>
    exact Option.some_ne_none _

theorem hexValue?_of_step (he : t.exponent.natAbs ≤ 2 ^ 62) {b : UInt8}
    (h : t.step b = some none) :
    Bytes.hexValue? b = none ∧ (t.pastPoint = false → b ≠ 46) := by
  rcases step_cases he b with ⟨-, hb, hpoint⟩ | ⟨-, -, hstep⟩ | ⟨d, t', -, hstep, -⟩
  · exact ⟨hb, fun hpast h46 => hpoint ⟨h46, hpast⟩⟩
  · cases h.symm.trans hstep
  · cases h.symm.trans hstep

end Accumulator

theorem natAbs_exponent_push (s : Significand) (d : ℕ) :
    (s.push d).exponent.natAbs ≤ s.exponent.natAbs + 4 := by
  unfold Significand.push
  split_ifs <;> dsimp only <;> omega

/-! ## All bytes -/

/-- The significand from a position on, and the position behind it. -/
def readDigits (bs : Bytes) (t : Accumulator) (pos : ℕ) : Option (Accumulator × ℕ) :=
  match _h : bs[pos]? with
  | none => some (t, pos)
  | some b =>
    match t.step b with
    | none => none
    | some none => some (t, pos)
    | some (some t') => if pos + 1 < 2 ^ 64 then readDigits bs t' (pos + 1) else none
termination_by bs.length - pos
decreasing_by
  have := (List.getElem?_eq_some_iff.mp _h).1
  omega

/-- `t` is what has been read when reading comes to position `n`. -/
inductive Reaches (bs : Bytes) : ℕ → Accumulator → Prop
  | start : Reaches bs 0 .start
  | step {n : ℕ} {t t' : Accumulator} {b : UInt8} (h : Reaches bs n t) (hb : bs[n]? = some b)
      (hstep : t.step b = some (some t')) : Reaches bs (n + 1) t'

/-- The digits among the first `n` bytes of a significand, all but the point. -/
def digitsRead (bs : Bytes) (n : ℕ) : Bytes := (bs.take n).filter (· != 46)

theorem digitsRead_succ {bs : Bytes} {n : ℕ} {b : UInt8} (hb : bs[n]? = some b) :
    digitsRead bs (n + 1) = digitsRead bs n ++ [b].filter (· != 46) := by
  rw [digitsRead, List.take_add_one, hb, List.filter_append]
  rfl

/-- What holds of a significand that has been read up to position `n`. -/
structure Sound (bs : Bytes) (n : ℕ) (t : Accumulator) : Prop where
  le : n ≤ bs.length
  isRun : Form.hexadecimal.IsRun (digitsRead bs n)
  holds : ∃ places dropped,
    Holds t.significand (Form.hexadecimal.run (digitsRead bs n)) places dropped
  exponent : t.exponent.natAbs ≤ 4 * n
  rest : splitSignificand .empty bs = splitSignificand t.significand (bs.drop n)
  digit : t.anyDigit = false → t.mantissa = 0

theorem sound_start (bs : Bytes) : Sound bs 0 .start :=
  ⟨Nat.zero_le _, fun _ h => absurd h List.not_mem_nil, ⟨0, 0, holds_empty⟩, le_rfl, rfl,
    fun _ => rfl⟩

theorem drop_eq_cons {bs : Bytes} {n : ℕ} {b : UInt8} (hb : bs[n]? = some b) :
    n < bs.length ∧ bs.drop n = b :: bs.drop (n + 1) := by
  obtain ⟨hn, hget⟩ := List.getElem?_eq_some_iff.mp hb
  exact ⟨hn, by rw [List.drop_eq_getElem_cons hn, hget]⟩

section Step

variable {bs : Bytes} {n : ℕ} {t : Accumulator} {b : UInt8} (h : Sound bs n t)
  (hb : bs[n]? = some b)
include h hb

/-- The point is the one byte that is read and no digit. -/
theorem Sound.atPoint (hpoint : b = 46) (hpast : t.pastPoint = false) :
    Sound bs (n + 1) { t with pastPoint := true } := by
  obtain ⟨hn, hdrop⟩ := drop_eq_cons hb
  obtain ⟨places, dropped, hholds⟩ := h.holds
  have hread : digitsRead bs (n + 1) = digitsRead bs n := by
    rw [digitsRead_succ hb, hpoint]
    exact List.append_nil _
  refine ⟨hn, hread ▸ h.isRun, ⟨places, dropped, hread ▸ hholds.atPoint⟩, ?_, ?_, h.digit⟩
  · exact h.exponent.trans (Nat.mul_le_mul_left 4 (Nat.le_succ n))
  · rw [h.rest, hdrop, splitSignificand, if_pos ⟨hpoint, hpast⟩]
    rfl

theorem Sound.push {d : ℕ} (hd : Bytes.hexValue? b = some d) {t' : Accumulator}
    (hany : t'.anyDigit = true) (hpush : t'.significand = t.significand.push d) :
    Sound bs (n + 1) t' := by
  obtain ⟨hn, hdrop⟩ := drop_eq_cons hb
  obtain ⟨places, dropped, hholds⟩ := h.holds
  have hne : b ≠ 46 := by
    rintro rfl
    cases hd
  have hread : digitsRead bs (n + 1) = digitsRead bs n ++ [b] := by
    rw [digitsRead_succ hb, List.filter_cons_of_pos (by simpa using hne), List.filter_nil]
  have hvalue : Form.hexadecimal.digit b = d := congrArg (Option.getD · 0) hd
  have hrun : Form.hexadecimal.run (digitsRead bs (n + 1)) =
      16 * Form.hexadecimal.run (digitsRead bs n) + d := by
    rw [hread, Form.run_append, Form.run_singleton, hvalue, Nat.mul_comm]
    rfl
  obtain ⟨dropped', hholds'⟩ := hholds.push (hexValue?_lt hd)
  refine ⟨hn, ?_, ⟨_, dropped', hrun ▸ hpush ▸ hholds'⟩, ?_, ?_, fun hfalse => ?_⟩
  · rw [hread]
    refine Form.IsRun.append.mpr ⟨h.isRun, fun c hc => ?_⟩
    rw [List.mem_singleton.mp hc]
    exact Option.isSome_of_eq_some hd
  · have hle : t'.significand.exponent.natAbs ≤ t.significand.exponent.natAbs + 4 :=
      hpush ▸ natAbs_exponent_push t.significand d
    exact hle.trans (Nat.add_le_add_right h.exponent 4)
  · rw [h.rest, hdrop, splitSignificand, if_neg fun h => hne h.1, hd, hpush]
  · rw [hany] at hfalse
    cases hfalse

end Step

section Loop

variable {bs : Bytes} (hlength : bs.length < 2 ^ 60) {n : ℕ} {t : Accumulator}
include hlength

theorem Sound.natAbs_le (h : Sound bs n t) : t.exponent.natAbs ≤ 2 ^ 62 := by
  have := h.le
  have := h.exponent
  omega

theorem Sound.step (h : Sound bs n t) {b : UInt8} (hb : bs[n]? = some b) {t' : Accumulator}
    (hstep : t.step b = some (some t')) : Sound bs (n + 1) t' := by
  rcases Accumulator.step_cases (h.natAbs_le hlength) b with
    ⟨hend, -⟩ | ⟨hpoint, hpast, hnext⟩ | ⟨d, t'', hd, hnext, hany, hpush⟩
  · cases hstep.symm.trans hend
  · cases hstep.symm.trans hnext
    exact h.atPoint hb hpoint hpast
  · cases hstep.symm.trans hnext
    exact h.push hb hd hany hpush

theorem Reaches.sound (h : Reaches bs n t) : Sound bs n t := by
  induction h with
  | start => exact sound_start bs
  | step _ hb hstep ih => exact ih.step hlength hb hstep

theorem Reaches.natAbs_le (h : Reaches bs n t) : t.exponent.natAbs ≤ 2 ^ 62 :=
  (h.sound hlength).natAbs_le hlength

/-- **The word holds the first sixteen significant digits** of those that have been read. -/
theorem Reaches.mantissa_eq (h : Reaches bs n t) : t.mantissa.toNat =
    Form.hexadecimal.run (((digitsRead bs n).dropWhile (· == 48)).take 16) := by
  obtain ⟨places, dropped, hholds⟩ := (h.sound hlength).holds
  exact (hholds.kept_eq_run (h.sound hlength).isRun).2

/-- Reading comes to an end, where the significand does. -/
theorem Reaches.exists_readDigits (h : Reaches bs n t) :
    ∃ t' n', readDigits bs t n = some (t', n') ∧ Reaches bs n' t' ∧
      splitSignificand .empty bs = (t'.significand, bs.drop n') := by
  fun_induction readDigits bs t n with
  | case1 t n hb =>
    have hnil : bs.drop n = [] := List.drop_eq_nil_of_le (List.getElem?_eq_none_iff.mp hb)
    refine ⟨t, n, rfl, h, ?_⟩
    rw [(h.sound hlength).rest, hnil]
    rfl
  | case2 t n b hb hstep =>
    exact absurd hstep (Accumulator.step_ne_none (h.natAbs_le hlength) b)
  | case3 t n b hb hstep =>
    -- the byte that stops the loop ends the significand as well
    refine ⟨t, n, rfl, h, ?_⟩
    rw [(h.sound hlength).rest]
    refine splitSignificand_of_head? _ fun c hc => ?_
    rw [List.head?_drop, hb] at hc
    cases hc
    exact Accumulator.hexValue?_of_step (h.natAbs_le hlength) hstep
  | case4 t n b hb t' hstep hlt ih => exact ih (h.step hb hstep)
  | case5 t n b hb t' hstep hlt =>
    have := (List.getElem?_eq_some_iff.mp hb).1
    omega

end Loop

/-! ## Literals -/

/-- The exponent of a significand together with one that is written at a position. -/
def exponentAfter (bs : Bytes) (pos : ℕ) (e : ℤ) : Option ℤ :=
  if bs[pos]? = some 112 ∨ bs[pos]? = some 80 then do
    let next ← position? (pos + 1)
    let tail ← bs.behind? next
    match ← signedRun maxExponent tail with
    | some n => word? (e + n)
    | none => some e
  else some e

/-- A magnitude times a power of two, in steps whose exponents fit into words of 32 bits. -/
def scaleStepwise (p : Pattern) (e : ℤ) : Option Pattern :=
  if e = 0 then some p
  else
    let s := clampExponent 1000 e
    if -2 ^ 31 ≤ s ∧ s < 2 ^ 31 ∧ InWord (e - s) then scaleStepwise (p.scale s) (e - s) else none
termination_by e.natAbs
decreasing_by simp only [clampExponent]; omega

/-- The magnitude of the hexadecimal literal in front of a string, if it starts with `0x`. -/
def scan (bs : Bytes) : Option (Option Pattern) :=
  match bs.afterWord? (Bytes.ofAscii ['0', 'x']) with
  | none => some none
  | some rest => do
    let (t, pos) ← readDigits rest .start 0
    if t.anyDigit = false ∨ t.mantissa = 0 then some (some 0)
    else do
      let e ← exponentAfter rest pos t.exponent
      let p ← scaleStepwise (Pattern.nearest (t.mantissa.toNat * Pattern.unitsPerOne) 1)
        (clampExponent 2200 e)
      some (some p)

theorem exponentAt_cons (b : UInt8) (tail : Bytes) : exponentAt (b :: tail) =
    if b = 112 ∨ b = 80 then (signedFront maxExponent tail).getD 0 else 0 := by
  unfold exponentAt signedFront
  dsimp only
  by_cases hnil : (Bytes.splitDigits (Bytes.splitSign tail).2).1 = []
  · rw [hnil, if_pos rfl]
    split_ifs <;> rfl
  · rw [if_neg hnil]
    rfl

theorem exponentAfter_eq {bs : Bytes} (hlength : bs.length < 2 ^ 60) (n : ℕ) {e : ℤ}
    (he : e.natAbs ≤ 2 ^ 62) : exponentAfter bs n e = some (e + exponentAt (bs.drop n)) := by
  rw [exponentAfter, ← List.head?_drop]
  cases hdrop : bs.drop n with
  | nil => exact congrArg some (Int.add_zero e).symm
  | cons b tail =>
    rw [List.head?_cons, exponentAt_cons]
    by_cases hb : b = 112 ∨ b = 80
    · have hcons := congrArg List.length hdrop
      rw [List.length_drop, List.length_cons] at hcons
      have htail : bs.behind? (n + 1) = some tail := by
        rw [Bytes.behind?, if_pos (by omega), ← List.tail_drop, hdrop, List.tail_cons]
      rw [if_pos (hb.imp (congrArg some) (congrArg some)), if_pos hb, position?_of_lt (by omega),
        Option.bind_eq_bind, Option.bind_some, htail, Option.bind_eq_bind, Option.bind_some,
        signedRun_eq (by decide), Option.bind_eq_bind, Option.bind_some]
      cases hfront : signedFront maxExponent tail with
      | none => exact congrArg some (Int.add_zero e).symm
      | some m =>
        have hm : m.natAbs ≤ 2 ^ 20 := natAbs_le_of_signedFront hfront
        exact word?_of_le (by omega)
    · have hletter : ¬ (some b = some 112 ∨ some b = some 80) := fun h =>
        hb (h.imp Option.some.inj Option.some.inj)
      rw [if_neg hletter, if_neg hb, Int.add_zero]

theorem scaleStepwise_eq (p : Pattern) {e : ℤ} (he : e.natAbs ≤ 2 ^ 62) :
    scaleStepwise p e = some (Numeral.Hexadecimal.scaleStepwise p e) := by
  fun_induction scaleStepwise p e with
  | case1 p => rw [Numeral.Hexadecimal.scaleStepwise, if_pos rfl]
  | case2 p e hne s hs ih =>
    rw [Numeral.Hexadecimal.scaleStepwise, if_neg hne]
    exact ih (by simp only [s, clampExponent]; omega)
  | case3 p e hne s hs =>
    refine absurd ⟨?_, ?_, inWord_of_le ?_⟩ hs <;> simp only [s, clampExponent] <;> omega

/-- **A hexadecimal literal is read in range.** -/
theorem scan_eq {bs : Bytes} (hlength : bs.length < 2 ^ 60) :
    scan bs = some (Numeral.Hexadecimal.scan bs) := by
  unfold scan Numeral.Hexadecimal.scan
  cases hmark : bs.afterWord? (Bytes.ofAscii ['0', 'x']) with
  | none => rfl
  | some rest =>
    have hrest : rest.length < 2 ^ 60 := by
      have := length_of_afterWord? hmark
      omega
    obtain ⟨t, n, hread, hreaches, hsplit⟩ := Reaches.start.exists_readDigits hrest
    have hsound := hreaches.sound hrest
    dsimp only
    rw [hread, Option.bind_eq_bind, Option.bind_some, Option.map_some, patternAt, hsplit]
    dsimp only
    by_cases hm : t.mantissa = 0
    · have hkept : t.significand.kept = 0 := congrArg UInt64.toNat hm
      rw [if_pos (.inr hm), if_pos hkept]
    · have hkept : t.significand.kept ≠ 0 := fun h => hm (UInt64.toNat_inj.mp h)
      rw [if_neg fun h => hm (h.elim hsound.digit id), if_neg hkept,
        exponentAfter_eq hrest n (hreaches.natAbs_le hrest), Option.bind_eq_bind, Option.bind_some,
        scaleStepwise_eq _ (by simp only [clampExponent]; omega), Option.bind_eq_bind,
        Option.bind_some]
      rfl

end Checked.Hexadecimal

/-! ## Text that is a literal -/

theorem toNat_lt_of_toLower {b : UInt8} (h : (Bytes.toLower b).toNat < 0x80) : b.toNat < 0x80 := by
  unfold Bytes.toLower at h
  split_ifs at h with hb
  · simp only [UInt8.le_iff_toNat_le, UInt8.reduceToNat] at hb
    omega
  · exact h

theorem toNat_lt_of_isPart {b : UInt8} (h : Spelling.IsPart .decimal b) : b.toNat < 0x80 := by
  have hdigit : Bytes.isDigit b = true → b.toNat < 0x80 := fun hb => by
    have := Bytes.isDigit_iff.mp hb
    omega
  rcases h with h | h | h | rfl | rfl | rfl
  · refine hdigit ?_
    by_contra hb
    simp [Form.decimal, decimalDigit?, hb] at h
  · exact hdigit h
  · refine toNat_lt_of_toLower ?_
    rw [h]
    decide
  · decide
  · decide
  · decide

theorem toNat_lt_of_map_toLower {t : Bytes} (h : ∀ c ∈ t.map Bytes.toLower, c.toNat < 0x80) :
    ∀ b ∈ t, b.toNat < 0x80 := fun _ hb => toNat_lt_of_toLower (h _ (List.mem_map_of_mem hb))

/-- A literal is ASCII. -/
theorem Written.toNat_lt_of_mem_text (w : Written) : ∀ b ∈ w.text, b.toNat < 0x80 := by
  intro b hb
  rcases List.mem_append.mp hb with hb | hb
  · exact toNat_lt_of_isPart (Spelling.isPart_of_mem_signText hb)
  cases hw : w.magnitude with
  | infinity t ht =>
    rw [hw] at hb
    have hwords : ∀ word ∈ infinityWords, ∀ c ∈ word, c.toNat < 0x80 := by
      decide +kernel
    exact toNat_lt_of_map_toLower (hwords _ ht) b hb
  | nan t ht =>
    rw [hw] at hb
    have hword : ∀ c ∈ Bytes.ofAscii ['n', 'a', 'n'], c.toNat < 0x80 := by decide +kernel
    exact toNat_lt_of_map_toLower (ht ▸ hword) b hb
  | decimal d =>
    rw [hw] at hb
    exact toNat_lt_of_isPart (Spelling.isPart_of_mem_text d hb)

/-- The number of a text, if it is a literal from its first to its last byte. -/
def parse? (text : List Char) : Option Binary64 :=
  let (negative, body) := Bytes.splitSign (Utf8.encode text)
  match splitLiteral body with
  | some (l, []) => some (.ofPattern negative l.pattern)
  | _ => none

theorem parse?_text (w : Written) {text : List Char} (h : Utf8.encode text = w.text) :
    parse? text = some (.ofPattern (w.sign.getD false) w.magnitude.literal.pattern) := by
  have hbare := startsBare_text w.magnitude []
  have hend : w.magnitude.EndsBefore [] := fun m' hm' => by
    rw [List.append_nil] at hm'
    exact hm'.length_le
  have hsplit := splitLiteral_of_endsBefore hend
  rw [List.append_nil] at hbare hsplit
  rw [parse?, h, Written.text, splitSign_signText fun _ => hbare.startsUnsigned]
  dsimp only
  rw [hsplit]

/-- Exactly the literals are numbers as a whole. -/
theorem isSome_parse?_iff {text : List Char} :
    (parse? text).isSome ↔ ∃ w : Written, w.text = Utf8.encode text := by
  constructor
  · intro h
    obtain ⟨sign, body, hbytes, hbody⟩ := exists_signText (Utf8.encode text)
    rw [parse?, hbytes, splitSign_signText hbody] at h
    dsimp only at h
    split at h
    · next l hsplit =>
      obtain ⟨m, hm, -⟩ := splitLiteral_sound hsplit
      exact ⟨⟨sign, m⟩, by rw [hbytes, hm, List.append_nil]; rfl⟩
    · cases h
  · rintro ⟨w, hw⟩
    rw [parse?_text w hw.symm]
    rfl

theorem Magnitude.text_ne_nil (m : Magnitude) : m.text ≠ [] := by
  cases m with
  | infinity t ht =>
    rintro rfl
    exact absurd ht (by decide)
  | nan t ht =>
    rintro rfl
    cases ht
  | decimal d =>
    obtain ⟨b, bs, htext, -⟩ := exists_text_decimal d
    rw [Magnitude.text, htext]
    exact List.cons_ne_nil b bs

/-- What is split off in front of a string is a literal, with its sign. -/
theorem exists_written (bs : Bytes) :
    (literalLength bs = 0 ∧ splitLiteral bs.splitSign.2 = none) ∨
      ∃ w : Written, 0 < literalLength bs ∧ literalLength bs ≤ bs.length ∧
        bs.take (literalLength bs) = w.text ∧ bs.splitSign.1 = w.sign.getD false ∧
        (splitLiteral bs.splitSign.2).map Prod.fst = some w.magnitude.literal := by
  obtain ⟨sign, body, rfl, hbody⟩ := exists_signText bs
  rw [literalLength, splitSign_signText hbody]
  dsimp only
  cases hsplit : splitLiteral body with
  | none => exact .inl ⟨rfl, rfl⟩
  | some result =>
    obtain ⟨l, rest⟩ := result
    obtain ⟨m, rfl, rfl⟩ := splitLiteral_sound hsplit
    dsimp only
    have hpos := List.length_pos_iff.mpr m.text_ne_nil
    have hlength : (signText sign ++ (m.text ++ rest)).length - rest.length =
        (⟨sign, m⟩ : Written).text.length := by
      rw [← List.append_assoc, List.length_append, Nat.add_sub_cancel]
      rfl
    refine .inr ⟨⟨sign, m⟩, ?_, Nat.sub_le _ _, ?_, rfl, rfl⟩
    · rw [hlength, Written.text, List.length_append]
      exact Nat.add_pos_right _ hpos
    · rw [hlength, ← List.append_assoc]
      exact List.take_left

/-! ## Reals -/

namespace Checked

/-- The real in front of a string, if there is one. A decimal literal is handed on as text. -/
def scanReal (bs : Bytes) : Option (Option Binary64) := do
  let bs ← bs.behind? (bs.runLength Bytes.isBlank)
  let body ← bs.behind? (Bytes.signLength bs[0]?)
  match ← Hexadecimal.scan body with
  | some p =>
    let first ← bs[0]?
    some (some (.ofPattern (first == 45) p))
  | none =>
    let n ← literalLength bs
    if n = 0 then some none
    else do
      let front ← bs.front? n
      let text ← Utf8.decode? front
      let x ← parse? text
      some (some x)

theorem splitSign_fst_cons (b : UInt8) (rest : Bytes) :
    (Bytes.splitSign (b :: rest)).1 = (b == 45) := by
  unfold Bytes.splitSign
  dsimp only
  split_ifs with hminus hplus <;> simp_all

/-- **The scanner of reals stays in range.** -/
theorem scanReal_eq {bs : Bytes} (hlength : bs.length < 2 ^ 60) :
    scanReal bs = some (Numeral.scanReal bs) := by
  have hskip : bs.skipBlanks.length < 2 ^ 60 :=
    (List.dropWhile_suffix Bytes.isBlank).length_le.trans_lt hlength
  have hblanks : bs.behind? (bs.runLength Bytes.isBlank) = some bs.skipBlanks :=
    Bytes.behind?_runLength _ _
  rw [scanReal, hblanks, Option.bind_eq_bind, Option.bind_some, Numeral.scanReal]
  generalize bs.skipBlanks = bs at hskip ⊢
  obtain ⟨hbehind, hsign⟩ := Bytes.behind?_signLength bs
  rw [hbehind, Option.bind_eq_bind, Option.bind_some, Hexadecimal.scan_eq (by omega),
    Option.bind_eq_bind, Option.bind_some]
  dsimp only
  cases hscan : Numeral.Hexadecimal.scan (Bytes.splitSign bs).2 with
  | some p =>
    -- a literal that starts with `0x` is not empty
    cases bs with
    | nil => cases hscan
    | cons b rest =>
      dsimp only
      rw [splitSign_fst_cons]
      rfl
  | none =>
    dsimp only
    rw [literalLength_eq hskip, Option.bind_eq_bind, Option.bind_some]
    rcases exists_written bs with ⟨hzero, hnone⟩ | ⟨w, hpos, hle, htext, hnegative, hliteral⟩
    · rw [if_pos hzero, hnone]
      rfl
    · obtain ⟨text, hdecode, hencode⟩ := Utf8.decode?_of_ascii w.toNat_lt_of_mem_text
      obtain ⟨⟨l, rest⟩, hsplit, rfl⟩ := Option.map_eq_some_iff.mp hliteral
      rw [if_neg hpos.ne', Bytes.front?_of_le hle, Option.bind_eq_bind, Option.bind_some, htext,
        hdecode, Option.bind_eq_bind, Option.bind_some, parse?_text w hencode, Option.bind_some,
        hsplit, hnegative]
      rfl

end Checked

/-! ## All scanners -/

section Range

open Checked Checked.Hexadecimal

/-- **The scanners stay in range.** On every string of less than `2 ^ 60` bytes each part of the
string, each position, each number and each shift on the way is there, and the result is the one of
the scanner that checks nothing. The word that a significand is read into always holds its first
sixteen significant digits, and its exponent is in range. What is handed on as text is one, and it
is a literal as a whole. -/
theorem scanners_in_range (bs : Bytes) (hlength : bs.length < 2 ^ 60) :
    Checked.scanInteger bs = some (Numeral.scanInteger bs) ∧
      Checked.scanReal bs = some (Numeral.scanReal bs) ∧
      Checked.Hexadecimal.scan bs = some (Numeral.Hexadecimal.scan bs) ∧
      Checked.literalLength bs = some (Numeral.literalLength bs) ∧
      (∃ t n, readDigits bs .start 0 = some (t, n) ∧ Reaches bs n t) ∧
      (∀ n t, Reaches bs n t → InWord t.exponent ∧ t.mantissa.toNat =
        Form.hexadecimal.run (((digitsRead bs n).dropWhile (· == 48)).take 16)) ∧
      (0 < Numeral.literalLength bs →
        ∃ text, Utf8.decode? (bs.take (Numeral.literalLength bs)) = some text ∧
          (parse? text).isSome) := by
  refine ⟨scanInteger_eq bs, scanReal_eq hlength, scan_eq hlength, literalLength_eq hlength, ?_,
    fun n t h => ⟨inWord_of_le ?_, h.mantissa_eq hlength⟩, fun hpos => ?_⟩
  · obtain ⟨t, n, hread, hreaches, -⟩ := Reaches.start.exists_readDigits hlength
    exact ⟨t, n, hread, hreaches⟩
  · have := h.natAbs_le hlength
    omega
  · rcases exists_written bs with ⟨hzero, -⟩ | ⟨w, -, -, htext, -⟩
    · omega
    · obtain ⟨text, hdecode, hencode⟩ := Utf8.decode?_of_ascii w.toNat_lt_of_mem_text
      exact ⟨text, htext ▸ hdecode, isSome_parse?_iff.mpr ⟨w, hencode.symm⟩⟩

/-- Eighteen significant digits, and an exponent far beyond any word. -/
def overlongDigits : Bytes :=
  Bytes.ofAscii "00FEDCBA98765432101.8p+99999999999999999999".toList

/-- Sixteen digits are kept, the seventeenth counts for its weight, and infinity is read. -/
theorem scanners_in_range_overlong : overlongDigits.length < 2 ^ 60 ∧
    Checked.scanReal (Bytes.ofAscii " -0x".toList ++ overlongDigits) =
      some (some ⟨0xfff0000000000000⟩) ∧
    Reaches overlongDigits 21 ⟨0xFEDCBA9876543210, 4, true, true⟩ ∧
    0xFEDCBA9876543210 =
      Form.hexadecimal.run (((digitsRead overlongDigits 21).dropWhile (· == 48)).take 16) ∧
    ∃ text, Utf8.decode? (overlongDigits.take 2) = some text ∧ (parse? text).isSome := by
  have hlength : overlongDigits.length < 2 ^ 60 := by decide +kernel
  have hread : readDigits overlongDigits .start 0 =
      some (⟨0xFEDCBA9876543210, 4, true, true⟩, 21) := by decide +kernel
  have hreal : Numeral.scanReal (Bytes.ofAscii " -0x".toList ++ overlongDigits) =
      some ⟨0xfff0000000000000⟩ := by decide +kernel
  have hfront : Numeral.literalLength overlongDigits = 2 := by decide +kernel
  have hsigned := scanners_in_range (Bytes.ofAscii " -0x".toList ++ overlongDigits)
    (by decide +kernel)
  obtain ⟨-, -, -, -, ⟨t, n, hend, hreaches⟩, hstates, htext⟩ :=
    scanners_in_range overlongDigits hlength
  cases hread.symm.trans hend
  rw [hfront] at htext
  exact ⟨hlength, hreal ▸ hsigned.2.1, hreaches, (hstates _ _ hreaches).2, htext Nat.two_pos⟩

end Range

end AdaSupport.Numeral
