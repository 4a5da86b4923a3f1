import Formula.Number.Parts

/-! # Whole numbers among the floats

The bitwise operators and the shifts work on signed 64-bit integers: each operand is cut to its
integral part, and the result is the float nearest to the integer computed. The remainder is exact.
-/

namespace Formula.Number

/-- The integer part of `mantissa * 2 ^ exponent`. -/
def integerPart (mantissa : Nat) (exponent : Int) : Nat :=
  mantissa * twoTo exponent.toNat / twoTo (-exponent).toNat

/-- The least integer that fits 64 bits with a sign. -/
def leastWord : Int := -9223372036854775808

/-- The greatest integer that fits 64 bits with a sign. -/
def greatestWord : Int := 9223372036854775807

/-- The nearest integer that fits 64 bits with a sign. -/
def clamp (n : Int) : Int :=
  max leastWord (min n greatestWord)

/-- The integral part of `x`, cut toward zero, and as near to it as 64 bits reach. What is not a
number counts as zero. -/
def truncate (x : Float) : Int :=
  match parts x with
  | .nan => 0
  | .infinite true => leastWord
  | .infinite false => greatestWord
  | .finite true m e => clamp (-(integerPart m e : Int))
  | .finite false m e => clamp (integerPart m e)

/-- The integral part as a machine word. -/
def toWord (x : Float) : Int64 :=
  Int64.ofInt (truncate x)

/-- The float nearest to a machine word. -/
def ofWord (w : Int64) : Float :=
  ofInt w.toInt

/-- A word operation carried over to floats. -/
def onWords (f : Int64 → Int64 → Int64) (x y : Float) : Float :=
  ofWord (f (toWord x) (toWord y))

/-- Bit by bit complement of the integral part. -/
def complement (x : Float) : Float :=
  ofWord (~~~(toWord x))

/-- Bits both operands have. -/
def bitAnd : Float → Float → Float :=
  onWords fun a b => a &&& b

/-- Bits one of the operands has. -/
def bitOr : Float → Float → Float :=
  onWords fun a b => a ||| b

/-- Bits exactly one of the operands has. -/
def bitXor : Float → Float → Float :=
  onWords fun a b => a ^^^ b

/-- Shift to the left by the second operand modulo 64; bits that leave the word are lost. -/
def shiftLeft : Float → Float → Float :=
  onWords fun a b => a <<< b

/-- Shift to the right by the second operand modulo 64; the sign fills up. -/
def shiftRight : Float → Float → Float :=
  onWords fun a b => a >>> b

/-! ## Remainder -/

/-- What is left of `x` after taking `y` away as often as it fits, with the sign of `x`. Nothing is
left to speak of when `x` is infinite or `y` is zero. -/
def remainder (x y : Float) : Float :=
  match parts x, parts y with
  | .finite negative m e, .finite _ k f =>
    if k = 0 then nan
    else
      let low := min e f
      ofParts negative (m * twoTo (e - low).toNat % (k * twoTo (f - low).toNat)) low
  | .finite .., .infinite _ => x
  | _, _ => nan

end Formula.Number
