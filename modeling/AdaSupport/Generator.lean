import AdaSupport.Binary64
import AdaSupport.Keystream

/-!
# Random numbers

A **draw** is a word of the keystream without its lowest bit, a number below `2 ^ 31`. Every random
number takes one draw, and its value is a function of that draw alone.

* `Draw.real`: the draw as a fraction of `2 ^ 31`.
* `Draw.integer`: the draw brought into a range by its remainder. Ranges whose size does not divide
  `2 ^ 31` favour their low end a little, and wider ranges are not reached in their upper part.
* `Generator`: a keystream and a position in it.
-/

namespace AdaSupport

/-- A number below `2 ^ 31`. -/
abbrev Draw := Nat

namespace Draw

/-- The largest draw. -/
def largest : Nat := 2147483647

/-- The draw that a word gives. -/
def ofWord (w : UInt32) : Draw := w.toNat / 2

/-- A number from zero up to but not including one. -/
def real (d : Draw) : Binary64 :=
  .ofPattern false (Pattern.nearest (d * Pattern.unitsPerOne) (largest + 1))

/-- A number between the two bounds, in whichever order they are given. -/
def integer (d : Draw) (a b : Int32) : Int32 :=
  let low := min a.toInt b.toInt
  let span := max a.toInt b.toInt - low + 1
  Int32.ofInt (low + (d : Int) % span)

end Draw

/-- A keystream and the number of draws taken from it. -/
structure Generator where
  key : List UInt32
  position : Nat

namespace Generator

/-- The generator of a seed. -/
def ofSeed (seed : UInt64) : Generator := ⟨Keystream.key seed, 0⟩

/-- The next draw. -/
def draw (g : Generator) : Draw × Generator :=
  (Draw.ofWord (Keystream.word g.key g.position), { g with position := g.position + 1 })

/-- The generator past `n` draws. -/
def skip (g : Generator) (n : Nat) : Generator := { g with position := g.position + n }

/-- The next number from zero up to but not including one. -/
def real (g : Generator) : Binary64 × Generator :=
  let (d, g) := g.draw
  (d.real, g)

/-- The next number between two bounds. -/
def integer (g : Generator) (a b : Int32) : Int32 × Generator :=
  let (d, g) := g.draw
  (d.integer a b, g)

end Generator

end AdaSupport
