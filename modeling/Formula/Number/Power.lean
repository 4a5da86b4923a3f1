/-! # Powers

The two bases that numbers are scaled by, as plain functions on natural numbers.
-/

namespace Formula

/-- A power of two. -/
def twoTo (n : Nat) : Nat :=
  Nat.pow 2 n

/-- A power of ten. -/
def tenTo (n : Nat) : Nat :=
  Nat.pow 10 n

end Formula
