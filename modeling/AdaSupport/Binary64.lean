import AdaSupport.Power

/-!
# Binary64 numbers

A real is an IEEE 754 binary64 number, kept as its 64 bits. The lower 63 bits are its **pattern**;
patterns of finite numbers are ordered like the magnitudes they stand for, and every finite
magnitude is a whole number of **units** of `2 ^ -1074`. So exact values are natural numbers.

* `Pattern.units`: the exact magnitude of a pattern.
* `roundHalfEven`: a quotient rounded to the nearest whole number, halves to even.
* `Pattern.nearest n d`: the pattern nearest to `n / d` units, ties to the even pattern, infinite
  from half a step above the largest finite magnitude on.
* `Pattern.scale`: multiplication by a power of two, rounded once.
-/

namespace AdaSupport

/-- A binary64 number. -/
structure Binary64 where
  bits : UInt64
  deriving DecidableEq, Repr

/-- The quotient `n / d` rounded to a whole number, halves to the even neighbour. -/
def roundHalfEven (n d : Nat) : Nat :=
  let q := n / d
  let r := n % d
  if 2 * r < d then q else if d < 2 * r then q + 1 else q + q % 2

/-- The bits of a binary64 number without its sign. -/
abbrev Pattern := Nat

namespace Pattern

/-- The pattern of infinity; finite numbers lie below it and NaNs above. -/
def infinity : Pattern := 2047 * twoTo 52

/-- The pattern of the quiet NaN. -/
def nan : Pattern := 2047 * twoTo 52 + twoTo 51

/-- The exponent field. -/
def exponent (p : Pattern) : Nat := p / twoTo 52

/-- The fraction field. -/
def fraction (p : Pattern) : Nat := p % twoTo 52

/-- One in units of `2 ^ -1074`. -/
def unitsPerOne : Nat := twoTo 1074

/-- The magnitude of a finite pattern in units of `2 ^ -1074`. At `infinity` the same rule gives
`2 ^ 1024`, the magnitude that the next finite number would have. -/
def units (p : Pattern) : Nat :=
  if exponent p = 0 then fraction p else (twoTo 52 + fraction p) * twoTo (exponent p - 1)

/-- The pattern whose magnitude is nearest to `n / d` units, ties to the even pattern. -/
def nearest (n d : Nat) : Pattern :=
  let shift := (n / d).log2 - 52
  min infinity (shift * twoTo 52 + roundHalfEven n (d * twoTo shift))

/-- The magnitude times `2 ^ e`, rounded to the nearest pattern. Infinity stays infinite. -/
def scale (p : Pattern) (e : Int) : Pattern :=
  if infinity ≤ p then p
  else if 0 ≤ e then nearest (units p * twoTo e.toNat) 1
  else nearest (units p) (twoTo (-e).toNat)

end Pattern

namespace Binary64

/-- The number with the given sign and pattern. -/
def ofPattern (negative : Bool) (p : Pattern) : Binary64 :=
  ⟨UInt64.ofNat (if negative then twoTo 63 + p else p)⟩

/-- The bits below the sign. -/
def pattern (x : Binary64) : Pattern := x.bits.toNat % twoTo 63

/-- The sign bit. -/
def negative (x : Binary64) : Bool := twoTo 63 ≤ x.bits.toNat

/-- Positive zero. -/
def zero : Binary64 := ofPattern false 0

/-- The quiet NaN. -/
def nan : Binary64 := ofPattern false Pattern.nan

/-- Whether the number is a NaN. -/
def isNaN (x : Binary64) : Bool := Pattern.infinity < x.pattern

/-- Whether the number is a signaling NaN: a NaN whose highest fraction bit is clear. -/
def isSignaling (x : Binary64) : Bool := x.isNaN && x.pattern.fraction < twoTo 51

/-- Whether the number is neither infinite nor a NaN. -/
def isFinite (x : Binary64) : Bool := x.pattern < Pattern.infinity

/-- The number with its sign cleared. -/
def abs (x : Binary64) : Binary64 := ofPattern false x.pattern

/-- The integer as a number; every 32-bit integer is one exactly. -/
def ofInteger (v : Int32) : Binary64 :=
  ofPattern (v < 0) (Pattern.nearest (v.toInt.natAbs * Pattern.unitsPerOne) 1)

/-- An integer cut to the 32-bit range. -/
def clampInteger (v : Int) : Int32 := Int32.ofInt (max (-2147483648) (min v 2147483647))

/-- The number cut toward zero and then to the range of integers; a NaN gives zero. -/
def toInteger (x : Binary64) : Int32 :=
  if x.isNaN then 0
  else
    let whole : Nat := x.pattern.units / Pattern.unitsPerOne
    clampInteger (if x.negative then -(whole : Int) else whole)

/-! ## Elementary functions

Square roots are correctly rounded; the others are as accurate as the host's own. -/

/-- A function on the host's numbers, applied to bits. -/
def lift (f : Float → Float) (x : Binary64) : Binary64 := ⟨(f (Float.ofBits x.bits)).toBits⟩

/-- The square root. -/
def sqrt : Binary64 → Binary64 := lift Float.sqrt

/-- The sine of an angle in radians. -/
def sin : Binary64 → Binary64 := lift Float.sin

/-- The cosine of an angle in radians. -/
def cos : Binary64 → Binary64 := lift Float.cos

/-- The tangent of an angle in radians. -/
def tan : Binary64 → Binary64 := lift Float.tan

/-- The exponential. -/
def exp : Binary64 → Binary64 := lift Float.exp

/-- The natural logarithm. -/
def log : Binary64 → Binary64 := lift Float.log

/-- The first number to the power of the second. A quiet NaN to the power of zero is one, and so is
one to the power of a quiet NaN; a signaling NaN always gives a NaN. -/
def pow (x y : Binary64) : Binary64 :=
  if x.isSignaling || y.isSignaling then nan
  else ⟨(Float.pow (Float.ofBits x.bits) (Float.ofBits y.bits)).toBits⟩

end Binary64

end AdaSupport
