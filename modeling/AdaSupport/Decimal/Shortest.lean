import AdaSupport.Binary64
import AdaSupport.Decimal

/-!
# Shortest decimals

The decimal with the fewest digits that rounds to a given finite, nonzero pattern, and among those
the one nearest to its magnitude.

The numbers that round to a pattern `p` form the interval between the midpoints to the patterns
below and above it; the midpoints themselves belong to the even pattern. On the grid of multiples
of `10 ^ k` only the two neighbours of the magnitude can lie in it, so for one digit, two digits and
so on these two are tried. All comparisons are between natural numbers, with magnitudes in units of
`2 ^ -1074` and a common factor `10 ^ 400` that makes every grid whole.
-/

namespace AdaSupport.Decimal

/-- A decimal `digits * 10 ^ exponent`. -/
structure Scaled where
  digits : Nat
  exponent : Int
  deriving DecidableEq, Repr

namespace Shortest

/-- The power of ten that makes every grid whole. -/
def places : Nat := 400

/-- The magnitude of a pattern in the common scale. -/
def magnitude (p : Pattern) : Nat := p.units * tenTo places

/-- The step of the grid `10 ^ exponent` in the common scale. -/
def step (exponent : Int) : Nat := Pattern.unitsPerOne * tenTo (exponent + places).toNat

/-- Whether a number in the common scale rounds to the pattern `p`. -/
def roundsTo (p : Pattern) (x : Nat) : Bool :=
  let low := magnitude (p - 1) + magnitude p
  let high := magnitude p + magnitude (p + 1)
  if p % 2 = 0 then low ≤ 2 * x && 2 * x ≤ high else low < 2 * x && 2 * x < high

/-- The place of the decimal point: the magnitude is below `10 ^ point` and not below a tenth of
it. -/
def point (p : Pattern) : Int := width (p.units * tenTo 324 / Pattern.unitsPerOne) - 324

/-- The better of the magnitude's two neighbours on the grid `10 ^ exponent`, if one rounds to the
pattern: the nearer one, and of two equally near the even one. -/
def onGrid? (p : Pattern) (exponent : Int) : Option Nat :=
  let g := step exponent
  let below := magnitude p / g
  let above := below + 1
  match roundsTo p (below * g), roundsTo p (above * g) with
  | false, false => none
  | true, false => some below
  | false, true => some above
  | true, true => some (roundHalfEven (magnitude p) g)

end Shortest

/-- The shortest decimal that rounds to a finite, nonzero pattern. Seventeen digits always do. -/
def shortest (p : Pattern) : Scaled :=
  let point := Shortest.point p
  ((List.range' 1 17).findSome? fun (n : Nat) =>
    (Shortest.onGrid? p (point - n)).map fun c => ⟨c, point - n⟩).getD
    ⟨Shortest.magnitude p / Shortest.step (point - 17), point - 17⟩

end AdaSupport.Decimal
