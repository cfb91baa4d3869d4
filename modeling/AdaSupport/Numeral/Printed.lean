import AdaSupport.Decimal.Shortest

/-!
# Numbers as text

* `ofInteger`: an integer in decimal, with a minus sign when it is negative.
* `ofReal`: a real in the fewest digits that read back as the same number. Whole numbers have no
  point, magnitudes from `10 ^ -5` up to `10 ^ 16` are written out, all others get an exponent.
-/

namespace AdaSupport.Numeral

/-- An integer in decimal. -/
def ofInteger (v : Int32) : Bytes :=
  let digits := Decimal.digits v.toInt.natAbs
  if v < 0 then 45 :: digits else digits

/-- The digits of a number without its trailing zeros, and how many zeros were taken off. -/
def significant (n : Nat) : Bytes × Nat :=
  let ds := Decimal.digits n
  let kept := (ds.reverse.dropWhile (· == 48)).reverse
  (kept, ds.length - kept.length)

/-- The layout of the digits `ds` with the decimal point after the `point`-th of them. -/
def layout (ds : Bytes) (point : Int) : Bytes :=
  let zeros (n : Int) : Bytes := List.replicate n.toNat 48
  if ds.length ≤ point ∧ point ≤ 16 then ds ++ zeros (point - ds.length)
  else if 0 < point ∧ point ≤ 16 then ds.take point.toNat ++ 46 :: ds.drop point.toNat
  else if -5 < point ∧ point ≤ 0 then 48 :: 46 :: (zeros (-point) ++ ds)
  else
    let tail := if ds.length ≤ 1 then [] else 46 :: ds.drop 1
    let e := point - 1
    let exponent := Decimal.digits e.natAbs
    ds.take 1 ++ tail ++ 101 :: (if e < 0 then 45 :: exponent else exponent)

/-- The text of a finite magnitude. -/
def ofPattern (p : Pattern) : Bytes :=
  if p = 0 then [48]
  else
    let d := Decimal.shortest p
    let (ds, removed) := significant d.digits
    layout ds (ds.length + removed + d.exponent)

/-- A real in the fewest digits that read back as the same number. -/
def ofReal (x : Binary64) : Bytes :=
  if x.isNaN then Bytes.ofAscii ['n', 'a', 'n']
  else
    let magnitude := if x.isFinite then ofPattern x.pattern else Bytes.ofAscii ['i', 'n', 'f']
    if x.negative then 45 :: magnitude else magnitude

end AdaSupport.Numeral
