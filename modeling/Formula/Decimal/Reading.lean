import Formula.Number.Parts

/-! # Reading a decimal

The grammar is `digits+ ['.' digits*]` or `'.' digits+`, each with an optional exponent. The value is
the float nearest to the decimal, infinite when that is too large.
-/

namespace Formula.Decimal

/-- An ASCII digit. -/
def isDigit (c : Char) : Bool :=
  c.isDigit

/-- The number a list of digits stands for. -/
def ofDigits (digits : List Char) : Nat :=
  digits.foldl (fun n c => 10 * n + (c.toNat - '0'.toNat)) 0

/-- The float nearest to `digits * 10 ^ exponent`. Two bounds keep the powers small: from
`10 ^ 400` on everything is infinite, and below `10 ^ (-400)` everything is zero. -/
def nearest (negative : Bool) (digits : Nat) (exponent : Int) : Float :=
  if digits = 0 then Number.ofRatio negative 0 1
  else if 400 ≤ exponent then Number.ofRatio negative (tenTo 400) 1
  else if digits.log2 + 1 + exponent ≤ -400 then Number.ofRatio negative 0 1
  else Number.ofRatio negative (digits * tenTo exponent.toNat) (tenTo (-exponent).toNat)

/-- The exponent after its mark: an optional sign and at least one digit. -/
def readExponent? (cs : List Char) : Option Int :=
  let (negative, digits) := match cs with
    | '+' :: rest => (false, rest)
    | '-' :: rest => (true, rest)
    | _ => (false, cs)
  if digits.isEmpty || !digits.all isDigit then none
  else some (if negative then -(ofDigits digits : Int) else ofDigits digits)

/-- An unsigned decimal, if the whole text is one. -/
def read? (negative : Bool) (cs : List Char) : Option Float :=
  let whole := cs.takeWhile isDigit
  let rest := cs.dropWhile isDigit
  let (fraction, rest) := match rest with
    | '.' :: rest => (rest.takeWhile isDigit, rest.dropWhile isDigit)
    | _ => ([], rest)
  if whole.isEmpty && fraction.isEmpty then none
  else
    let value (exponent : Int) := nearest negative (ofDigits (whole ++ fraction))
      (exponent - fraction.length)
    match rest with
    | [] => some (value 0)
    | c :: rest => if c = 'e' ∨ c = 'E' then (readExponent? rest).map value else none

/-- A decimal with an optional sign, or one of the words for what is not finite, in any case of the
letters. -/
def ofText? (text : String) : Option Float :=
  let (negative, cs) := match text.toList with
    | '+' :: rest => (false, rest)
    | '-' :: rest => (true, rest)
    | cs => (false, cs)
  let word := cs.map Char.toLower
  if word = "inf".toList ∨ word = "infinity".toList then
    some (Number.ofRatio negative (tenTo 400) 1)
  else if word = "nan".toList then some Number.nan
  else read? negative cs

end Formula.Decimal
