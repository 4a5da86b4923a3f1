import Formula.Decimal.Shortest

/-! # Writing a float

Which digits are written is settled by `shortest`; how they are laid out is settled by a `Layout`,
one value for each format.
-/

namespace Formula.Decimal

/-- The decisions a format of decimal numbers makes. -/
structure Layout where
  /-- Which of two equally near shortest decimals is written. -/
  tie : Tie
  /-- The least and the greatest decimal exponent written without an exponent mark; without this,
  no number has one. -/
  positional : Option (Int × Int)
  /-- What follows a whole number written without an exponent mark. -/
  wholeTail : String
  nan : String
  infinity : String
  negativeInfinity : String

/-- The digits of `n` and no leading zero. -/
def digitsOf (n : Nat) : List Char :=
  Nat.toDigits 10 n

/-- Digits with the point after the first `point` of them, filled up with zeros. -/
def placePoint (wholeTail : String) (digits : List Char) (point : Int) : List Char :=
  let zeros (n : Int) := List.replicate n.toNat '0'
  if digits.length ≤ point then
    digits ++ zeros (point - digits.length) ++ wholeTail.toList
  else if 0 < point then
    digits.take point.toNat ++ '.' :: digits.drop point.toNat
  else
    '0' :: '.' :: zeros (-point) ++ digits

/-- One digit, the point if more follow, and the exponent with its sign. -/
def withExponent (digits : List Char) (exponent : Int) : List Char :=
  let fraction := digits.drop 1
  digits.take 1 ++ (if fraction.isEmpty then [] else '.' :: fraction) ++
    'e' :: (if exponent < 0 then '-' else '+') :: digitsOf exponent.natAbs

namespace Layout

variable (layout : Layout)

/-- A positive decimal. -/
def writeScaled (d : Scaled) : List Char :=
  let digits := digitsOf d.digits
  let point := digits.length + d.exponent
  let plain := match layout.positional with
    | none => true
    | some (low, high) => low ≤ point - 1 && point - 1 ≤ high
  if plain then placePoint layout.wholeTail digits point else withExponent digits (point - 1)

/-- The text of a float. -/
def write (x : Float) : String :=
  match Number.parts x with
  | .nan => layout.nan
  | .infinite false => layout.infinity
  | .infinite true => layout.negativeInfinity
  | .finite negative mantissa exponent =>
    let magnitude :=
      if mantissa = 0 then placePoint layout.wholeTail ['0'] 1
      else layout.writeScaled (shortest layout.tie mantissa exponent)
    String.ofList (if negative then '-' :: magnitude else magnitude)

end Layout

end Formula.Decimal
