import Formula.Number.Parts

/-! # The shortest decimal that reads back

A float is the nearest one to a whole interval of reals. Of the decimals in that interval the search
takes one on the coarsest decimal grid that has a point there, so that no decimal with fewer digits
reads back as the same float, and among the two neighbours on that grid the nearer.
-/

namespace Formula.Decimal

/-- Which of two equally near neighbours is taken. -/
inductive Tie where
  | up
  | even
deriving DecidableEq, Repr

/-- The positive decimal `digits * 10 ^ exponent`. -/
structure Scaled where
  digits : Nat
  exponent : Int
deriving DecidableEq, Repr

/-- A value and the ends of the interval of reals that round to it, as numerators over a common
denominator. -/
structure Interval where
  low : Nat
  value : Nat
  high : Nat
  den : Nat
  /-- The ends round to the value too. -/
  closed : Bool
deriving DecidableEq, Repr

/-- The interval of `mantissa * 2 ^ exponent`: half a unit to either side, but below a power of two
only a quarter, as the floats lie closer there. A half goes to the even mantissa. -/
def Interval.of (mantissa : Nat) (exponent : Int) : Interval :=
  let scale := twoTo exponent.toNat
  let below := if mantissa = twoTo 52 ∧ -1074 < exponent then 1 else 2
  { low := (4 * mantissa - below) * scale
    value := 4 * mantissa * scale
    high := (4 * mantissa + 2) * scale
    den := 4 * twoTo (-exponent).toNat
    closed := mantissa % 2 = 0 }

namespace Interval

variable (i : Interval)

/-- `digits * 10 ^ k` rounds to the value. -/
def holds (digits : Nat) (k : Int) : Bool :=
  let s := tenTo (-k).toNat
  let x := digits * tenTo k.toNat * i.den
  if i.closed then i.low * s ≤ x && x ≤ i.high * s else i.low * s < x && x < i.high * s

/-- The neighbour of the value on the grid of the multiples of `10 ^ k` that rounds to it, if one
does; the nearer if both do. -/
def neighbour? (tie : Tie) (k : Int) : Option Nat :=
  let s := tenTo (-k).toNat
  let unit := tenTo k.toNat * i.den
  let lower := i.value * s / unit
  let twice := 2 * (i.value * s % unit)
  if i.holds lower k then
    if i.holds (lower + 1) k then
      if twice < unit then some lower
      else if unit < twice then some (lower + 1)
      else match tie with
        | .up => some (lower + 1)
        | .even => some (lower + lower % 2)
    else some lower
  else if i.holds (lower + 1) k then some (lower + 1)
  else none

/-- Refines the grid until it has a point in the interval. -/
def search (tie : Tie) : (steps : Nat) → (k : Int) → Scaled
  | 0, k => ⟨i.value * tenTo (-k).toNat / (tenTo k.toNat * i.den), k⟩
  | steps + 1, k =>
    match i.neighbour? tie k with
    | some digits => ⟨digits, k⟩
    | none => search tie steps (k - 1)

end Interval

/-- A decimal exponent whose power exceeds `mantissa * 2 ^ exponent`, by a factor of at most ten
thousand. -/
def coarse (mantissa : Nat) (exponent : Int) : Int :=
  let bits : Int := mantissa.log2 + 1 + exponent
  if 0 ≤ bits then bits * 302 / 1000 + 1 else 1 - (-bits) * 301 / 1000

/-- The shortest decimal that reads back as `mantissa * 2 ^ exponent`. Seventeen digits always
suffice, and the search begins at most four grids above the first of them. -/
def shortest (tie : Tie) (mantissa : Nat) (exponent : Int) : Scaled :=
  (Interval.of mantissa exponent).search tie 24 (coarse mantissa exponent)

end Formula.Decimal
