import Formula.Number.Power

/-! # What a float stands for

A number of the language is a 64-bit float. `parts` reads off what its bits stand for, and `ofRatio`
is the way back: the float nearest to a quotient of natural numbers, a half going to the even
neighbour. All other arithmetic that is not a machine operation goes through these two.
-/

namespace Formula.Number

/-- What the bits of a float stand for; a finite one is `mantissa * 2 ^ exponent` up to sign. -/
inductive Parts where
  | nan
  | infinite (negative : Bool)
  | finite (negative : Bool) (mantissa : Nat) (exponent : Int)
deriving DecidableEq, Repr

/-- Sign bit, eleven exponent bits, fifty-two fraction bits. The all-zero exponent holds the numbers
without a leading one, the all-one exponent what is not finite. -/
def Parts.ofBits (bits : Nat) : Parts :=
  let negative := bits / twoTo 63 % 2 == 1
  let field : Nat := bits / twoTo 52 % twoTo 11
  let fraction : Nat := bits % twoTo 52
  if field = 2047 then
    if fraction = 0 then .infinite negative else .nan
  else if field = 0 then
    .finite negative fraction (-1074)
  else
    .finite negative (twoTo 52 + fraction) (field - 1075)

/-- What `x` stands for. -/
def parts (x : Float) : Parts :=
  Parts.ofBits x.toBits.toNat

/-- Neither infinite nor not-a-number. -/
def isFinite (x : Float) : Bool :=
  match parts x with
  | .finite .. => true
  | _ => false

/-- Not a number. -/
def nan : Float :=
  Float.ofBits 0x7FF8000000000000

/-! ## Rounding a quotient -/

/-- The natural number nearest to `num / den`; a half goes to the even neighbour. -/
def roundDiv (num den : Nat) : Nat :=
  let q := num / den
  let r := 2 * (num % den)
  if r < den then q else if r = den then q + q % 2 else q + 1

/-- Numerator and denominator of `num / den / 2 ^ e`. -/
def unscale (num den : Nat) (e : Int) : Nat × Nat :=
  (num * twoTo (-e).toNat, den * twoTo e.toNat)

/-- The exponent under which `num / den` has a mantissa of 53 bits, or the least exponent there is
if that is larger. -/
def exponentOf (num den : Nat) : Int :=
  let e : Int := num.log2 - den.log2 - 52
  let (n, d) := unscale num den e
  max (if n < twoTo 52 * d then e - 1 else e) (-1074)

/-- The bits of the non-negative float nearest to `num / den`. A mantissa rounded up to 54 bits
carries into the exponent field, and what is too large for that field is infinite. -/
def nearestBits (num den : Nat) : Nat :=
  if num = 0 then 0
  else
    let e := exponentOf num den
    let (n, d) := unscale num den e
    min ((e + 1074).toNat * twoTo 52 + roundDiv n d) (2047 * twoTo 52)

/-- The float with the given sign nearest in magnitude to `num / den`. -/
def ofRatio (negative : Bool) (num den : Nat) : Float :=
  Float.ofBits (UInt64.ofNat ((if negative then twoTo 63 else 0) + nearestBits num den))

/-- The float nearest to an integer. Zero is positive. -/
def ofInt (n : Int) : Float :=
  ofRatio (n < 0) n.natAbs 1

/-- The float nearest to `mantissa * 2 ^ exponent`. -/
def ofParts (negative : Bool) (mantissa : Nat) (exponent : Int) : Float :=
  ofRatio negative (mantissa * twoTo exponent.toNat) (twoTo (-exponent).toNat)

end Formula.Number
