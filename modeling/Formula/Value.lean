import Formula.Decimal.Layout

/-! # Values

What an expression evaluates to: a number, a truth value, a text, or an array of values.
-/

namespace Formula

/-- The result of an evaluation. -/
inductive Value where
  | number (x : Float)
  | bool (b : Bool)
  | text (s : String)
  | array (items : List Value)
deriving Repr, Inhabited

/-- The types of values. -/
inductive Kind where
  | number
  | text
  | bool
  | array
deriving DecidableEq, Repr

/-- The name of a type in messages. -/
def Kind.name : Kind → String
  | .number => "number"
  | .text => "string"
  | .bool => "boolean"
  | .array => "array"

namespace Value

/-- The type of a value. -/
def kind : Value → Kind
  | .number _ => .number
  | .bool _ => .bool
  | .text _ => .text
  | .array _ => .array

/-! ## Two equalities

Identity is decidable: it tells the two zeros apart and holds of not-a-number with itself. Equality in
the language compares numbers as numbers.
-/

mutual

/-- Decides whether two values are the same. -/
protected def decEq : (a b : Value) → Decidable (a = b)
  | .number x, .number y => decidable_of_iff (x = y) (by simp)
  | .bool x, .bool y => decidable_of_iff (x = y) (by simp)
  | .text x, .text y => decidable_of_iff (x = y) (by simp)
  | .array xs, .array ys =>
    have := Value.decEqAll xs ys
    decidable_of_iff (xs = ys) (by simp)
  | .number _, .bool _ | .number _, .text _ | .number _, .array _
  | .bool _, .number _ | .bool _, .text _ | .bool _, .array _
  | .text _, .number _ | .text _, .bool _ | .text _, .array _
  | .array _, .number _ | .array _, .bool _ | .array _, .text _ => isFalse (by simp)

/-- Decides whether two lists of values are the same. -/
protected def decEqAll : (xs ys : List Value) → Decidable (xs = ys)
  | [], [] => isTrue rfl
  | [], _ :: _ | _ :: _, [] => isFalse (by simp)
  | x :: xs, y :: ys =>
    have := Value.decEq x y
    have := Value.decEqAll xs ys
    decidable_of_iff (x = y ∧ xs = ys) (by simp)

end

instance : DecidableEq Value :=
  Value.decEq

mutual

/-- Equality in the language: within a type only, numbers as numbers, arrays element by element. -/
def equal : Value → Value → Bool
  | .number x, .number y => x == y
  | .bool x, .bool y => x == y
  | .text x, .text y => x == y
  | .array xs, .array ys => equalAll xs ys
  | _, _ => false

/-- Equal lengths, and equal elements place by place. -/
def equalAll : List Value → List Value → Bool
  | [], [] => true
  | x :: xs, y :: ys => equal x y && equalAll xs ys
  | _, _ => false

end

/-! ## Text -/

/-- Numbers are written in full, whatever their size, and without a point if they are whole. Of two
equally near shortest decimals the larger in magnitude is taken. -/
def numberLayout : Decimal.Layout where
  tie := .up
  positional := none
  wholeTail := ""
  nan := "NaN"
  infinity := "inf"
  negativeInfinity := "-inf"

mutual

/-- The text of a value. Texts stand for themselves; the elements of an array are set between
brackets. -/
def display : Value → String
  | .number x => numberLayout.write x
  | .bool true => "true"
  | .bool false => "false"
  | .text s => s
  | .array items => "[" ++ displayItems items ++ "]"

/-- The texts of the values with `", "` between them. -/
def displayItems : List Value → String
  | [] => ""
  | [x] => x.display
  | x :: y :: rest => x.display ++ ", " ++ displayItems (y :: rest)

end

/-! ## Views -/

/-- The number, if the value is one. -/
def asNumber? : Value → Option Float
  | .number x => some x
  | _ => none

/-- The text, if the value is one. -/
def asText? : Value → Option String
  | .text s => some s
  | _ => none

/-- The truth value, if the value is one. -/
def asBool? : Value → Option Bool
  | .bool b => some b
  | _ => none

/-- The elements, if the value is an array. -/
def asArray? : Value → Option (List Value)
  | .array items => some items
  | _ => none

end Value

end Formula
