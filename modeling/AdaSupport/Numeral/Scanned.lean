import AdaSupport.Binary64
import AdaSupport.Decimal

/-!
# Numbers read from text

A number is read from the front of a byte string: blanks are skipped, one sign may follow, and the
longest numeric part counts. What stands behind it has no influence.

* `scanInteger`: a run of digits, cut to the range of integers.
* `splitLiteral`: the longest decimal literal, word for infinity, or `nan` in front of a string.
* `Literal.pattern`: the correctly rounded magnitude of a literal.
* `Hexadecimal.scan`: a hexadecimal literal `0x…`, read with a bounded significand.
* `scanReal`: a real, hexadecimal or decimal.
-/

namespace AdaSupport.Numeral

/-! ## Integers -/

/-- The integer in front of a string, if a digit follows the blanks and the sign. -/
def scanInteger (bs : Bytes) : Option Int32 :=
  let (negative, body) := bs.skipBlanks.splitSign
  let ds := body.splitDigits.1
  if ds = [] then none
  else
    let n : Int := Decimal.cappedValue 2147483648 ds
    some (Binary64.clampInteger (if negative then -n else n))

/-! ## Decimal literals -/

/-- An unsigned real literal. -/
inductive Literal where
  | infinity
  | nan
  | decimal (digits : Nat) (exponent : Int)
  deriving DecidableEq, Repr

/-- The magnitude `digits * 10 ^ exponent` rounded to the nearest pattern. Exponents that leave the
range of finite numbers by far are decided without computing the power. -/
def decimalPattern (digits : Nat) (exponent : Int) : Pattern :=
  if digits = 0 then 0
  else if 0 ≤ exponent then
    if 400 < exponent then Pattern.infinity
    else Pattern.nearest (digits * tenTo exponent.toNat * Pattern.unitsPerOne) 1
  else if digits.log2 + 1080 < 3 * (-exponent).toNat then 0
  else Pattern.nearest (digits * Pattern.unitsPerOne) (tenTo (-exponent).toNat)

/-- The magnitude of a literal. -/
def Literal.pattern : Literal → Pattern
  | .infinity => Pattern.infinity
  | .nan => Pattern.nan
  | .decimal digits exponent => decimalPattern digits exponent

/-- The decimal exponent from which on further digits are taken and do not count. -/
def exponentBound : Nat := twoTo 16

/-- The exponent in front of a string and what follows it; without a digit there is none and
nothing is taken. -/
def splitExponent (bs : Bytes) : Int × Bytes :=
  match bs with
  | [] => (0, [])
  | b :: rest =>
    let (negative, body) := Bytes.splitSign rest
    let (ds, tail) := body.splitDigits
    if (b = 101 ∨ b = 69) ∧ ds ≠ [] then
      let n : Int := Decimal.leadingValue exponentBound ds
      (if negative then -n else n, tail)
    else (0, bs)

/-- The digits after a point and what follows them; without a point there are none. -/
def splitFraction (bs : Bytes) : Bytes × Bytes :=
  match bs with
  | [] => ([], [])
  | b :: rest => if b = 46 then Bytes.splitDigits rest else ([], bs)

/-- The decimal literal in front of a string and what follows it. A digit before or after the point
is required. -/
def splitDecimal (bs : Bytes) : Option (Literal × Bytes) :=
  let (whole, rest) := bs.splitDigits
  let (fraction, rest) := splitFraction rest
  if whole = [] ∧ fraction = [] then none
  else
    let (exponent, rest) := splitExponent rest
    some (.decimal (Decimal.value (whole ++ fraction)) (exponent - fraction.length), rest)

/-- The unsigned literal in front of a string and what follows it. -/
def splitLiteral (bs : Bytes) : Option (Literal × Bytes) :=
  match bs.afterWord? (Bytes.ofAscii ['i', 'n', 'f', 'i', 'n', 'i', 't', 'y']) with
  | some rest => some (.infinity, rest)
  | none =>
    match bs.afterWord? (Bytes.ofAscii ['i', 'n', 'f']) with
    | some rest => some (.infinity, rest)
    | none =>
      match bs.afterWord? (Bytes.ofAscii ['n', 'a', 'n']) with
      | some rest => some (.nan, rest)
      | none => splitDecimal bs

/-- The length of the numeric part in front of a string that starts with no blank, its sign
included; zero when there is none. -/
def literalLength (bs : Bytes) : Nat :=
  match splitLiteral bs.splitSign.2 with
  | some (_, rest) => bs.length - rest.length
  | none => 0

/-! ## Hexadecimal literals -/

namespace Hexadecimal

/-- What has been read of a hexadecimal significand: the digits kept so far, the power of two they
are scaled by, and whether the point has been passed. -/
structure Significand where
  kept : Nat
  exponent : Int
  pastPoint : Bool
  deriving DecidableEq, Repr

/-- No digit yet. -/
def Significand.empty : Significand := ⟨0, 0, false⟩

/-- One more digit. Sixteen significant digits fit; later ones only count for their weight. -/
def Significand.push (s : Significand) (d : Nat) : Significand :=
  if s.kept < twoTo 60 then
    { s with
      kept := 16 * s.kept + d
      exponent := if s.pastPoint then s.exponent - 4 else s.exponent }
  else { s with exponent := if s.pastPoint then s.exponent else s.exponent + 4 }

/-- The significand that starts with `s` and goes on in front of a string, and what follows it. -/
def splitSignificand (s : Significand) : Bytes → Significand × Bytes
  | [] => (s, [])
  | b :: rest =>
    if b = 46 ∧ s.pastPoint = false then splitSignificand { s with pastPoint := true } rest
    else
      match Bytes.hexValue? b with
      | some d => splitSignificand (s.push d) rest
      | none => (s, b :: rest)

/-- The largest binary exponent that is told apart from larger ones. -/
def maxExponent : Nat := twoTo 20

/-- The binary exponent in front of a string, zero when there is none. -/
def exponentAt : Bytes → Int
  | [] => 0
  | b :: rest =>
    let (negative, body) := Bytes.splitSign rest
    if b = 112 ∨ b = 80 then
      let n : Int := Decimal.cappedValue maxExponent body.splitDigits.1
      if negative then -n else n
    else 0

/-- `e` cut to the range from `-bound` to `bound`. -/
def clampExponent (bound : Nat) (e : Int) : Int := max (-(bound : Int)) (min e bound)

/-- The magnitude times `2 ^ e`, in factors of at most `2 ^ 1000` with a rounding after each. -/
def scaleStepwise (p : Pattern) (e : Int) : Pattern :=
  if e = 0 then p
  else
    let s := clampExponent 1000 e
    scaleStepwise (p.scale s) (e - s)
termination_by e.natAbs
decreasing_by simp only [clampExponent]; omega

/-- The magnitude of a hexadecimal literal that goes on behind `0x`. Without digits it is zero. -/
def patternAt (bs : Bytes) : Pattern :=
  let (s, rest) := splitSignificand .empty bs
  if s.kept = 0 then 0
  else
    scaleStepwise (Pattern.nearest (s.kept * Pattern.unitsPerOne) 1)
      (clampExponent 2200 (s.exponent + exponentAt rest))

/-- The magnitude of the hexadecimal literal in front of a string, if it starts with `0x`. -/
def scan (bs : Bytes) : Option Pattern :=
  (bs.afterWord? (Bytes.ofAscii ['0', 'x'])).map patternAt

end Hexadecimal

/-! ## Reals -/

/-- The real in front of a string, if there is one. -/
def scanReal (bs : Bytes) : Option Binary64 :=
  let (negative, body) := bs.skipBlanks.splitSign
  match Hexadecimal.scan body with
  | some p => some (.ofPattern negative p)
  | none => (splitLiteral body).map fun l => .ofPattern negative l.1.pattern

/-! ## Conversions -/

/-- The integer in front of a text, zero when there is none. -/
def toInteger (t : Option Bytes) : Int32 := (t.bind scanInteger).getD 0

/-- The real in front of a text, zero when there is none. -/
def toReal (t : Option Bytes) : Binary64 := (t.bind scanReal).getD .zero

end AdaSupport.Numeral
