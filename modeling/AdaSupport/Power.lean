/-!
# Powers of two and ten

Binary numbers scale by powers of two and decimal numbers by powers of ten.
-/

namespace AdaSupport

/-- Two to the power `n`. -/
def twoTo (n : Nat) : Nat := Nat.pow 2 n

/-- Ten to the power `n`. -/
def tenTo (n : Nat) : Nat := Nat.pow 10 n

end AdaSupport
