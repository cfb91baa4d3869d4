/-!
# Classes of characters

A class of characters is a list of closed ranges of code points.

* `Ranges.contains`: whether a character lies in one of the ranges.
-/

namespace AdaSupport.Character

/-- Closed ranges of code points. -/
abbrev Ranges := List (Nat × Nat)

namespace Ranges

/-- Whether a character lies in one of the ranges. -/
def contains (rs : Ranges) (c : Char) : Bool := rs.any fun r => r.1 ≤ c.toNat && c.toNat ≤ r.2

end Ranges

end AdaSupport.Character
