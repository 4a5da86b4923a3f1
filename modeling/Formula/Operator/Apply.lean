import Formula.Error
import Formula.Number.Whole

/-! # What operators compute

The tables say what an infix operator means on two numbers, texts or truth values. `apply` works on
values: equality takes any two, addition joins whatever stands beside a text, and arithmetic goes into
arrays of equal length.
-/

namespace Formula

/-! ## Tables -/

/-- The four order comparisons. -/
inductive Order where
  | lt
  | le
  | gt
  | ge
deriving DecidableEq, Repr

/-- The comparison of two numbers. Nothing holds of not-a-number. -/
def Order.ofNumbers : Order → Float → Float → Bool
  | .lt, a, b => a < b
  | .le, a, b => a ≤ b
  | .gt, a, b => b < a
  | .ge, a, b => b ≤ a

/-- The comparison of two texts, by code points. -/
def Order.ofTexts : Order → String → String → Bool
  | .lt, a, b => a < b
  | .le, a, b => a ≤ b
  | .gt, a, b => b < a
  | .ge, a, b => b ≤ a

namespace InfixOp

/-- The number the operator makes of two numbers. -/
def arithmetic? : InfixOp → Option (Float → Float → Float)
  | .add => some (· + ·)
  | .sub => some (· - ·)
  | .mul => some (· * ·)
  | .div => some (· / ·)
  | .rem => some Number.remainder
  | .shiftLeft => some Number.shiftLeft
  | .shiftRight => some Number.shiftRight
  | .bitAnd => some Number.bitAnd
  | .bitOr => some Number.bitOr
  | .bitXor => some Number.bitXor
  | _ => none

/-- The comparison the operator is. -/
def order? : InfixOp → Option Order
  | .lt => some .lt
  | .le => some .le
  | .gt => some .gt
  | .ge => some .ge
  | _ => none

/-- The truth value the operator makes of two truth values. -/
def logic? : InfixOp → Option (Bool → Bool → Bool)
  | .and | .bitAnd => some (· && ·)
  | .or | .bitOr => some (· || ·)
  | .bitXor => some (· ^^ ·)
  | _ => none

/-- The truth value of the left operand that settles the result. -/
def decisive? : InfixOp → Option Bool
  | .and => some false
  | .or => some true
  | _ => none

/-- The operator works on arrays element by element. -/
def isElementwise : InfixOp → Bool
  | .add | .sub | .mul | .div | .rem => true
  | _ => false

end InfixOp

/-! ## Values -/

/-- The operator takes no operands of these types. -/
def InfixOp.mismatch (op : InfixOp) (left right : Kind) : Error :=
  .typeMismatch op.symbol left.name right.name

/-- The value a prefix operator makes of a value. -/
def PrefixOp.apply : PrefixOp → Value → Except Error Value
  | .plus, v => .ok v
  | .negate, .number x => .ok (.number (-x))
  | .not, .bool b | .complement, .bool b => .ok (.bool !b)
  | .not, .number x | .complement, .number x => .ok (.number (Number.complement x))
  | op, v => .error (.unsupportedOperator op.symbol v.kind.name)

namespace InfixOp

/-- The value the operator makes of two values, arrays taken as wholes. -/
def applyWhole (op : InfixOp) (left right : Value) : Except Error Value :=
  let refused : Except Error Value := .error (op.mismatch left.kind right.kind)
  if op = .add ∧ (left.kind = .text ∨ right.kind = .text) then
    .ok (.text (left.display ++ right.display))
  else if op = .eq then .ok (.bool (left.equal right))
  else if op = .ne then .ok (.bool !(left.equal right))
  else
    match left, right with
    | .number a, .number b =>
      match op.arithmetic?, op.order? with
      | some f, _ => .ok (.number (f a b))
      | none, some order => .ok (.bool (order.ofNumbers a b))
      | none, none => refused
    | .text a, .text b =>
      match op.order? with
      | some order => .ok (.bool (order.ofTexts a b))
      | none => if op = .like then .ok (.bool (Text.contains a b)) else refused
    | .bool a, .bool b =>
      match op.logic? with
      | some f => .ok (.bool (f a b))
      | none => refused
    | _, _ => refused

mutual

/-- The value the operator makes of two values. Both operands are there: `and` and `or` take them like
any other operator. -/
def apply (op : InfixOp) : (left right : Value) → Except Error Value
  | .array xs, .array ys =>
    if op.isElementwise ∧ xs.length = ys.length then (applyAll op xs ys).map .array
    else op.applyWhole (.array xs) (.array ys)
  | left, right => op.applyWhole left right

/-- The values the operator makes of the elements, place by place. -/
def applyAll (op : InfixOp) : (xs ys : List Value) → Except Error (List Value)
  | x :: xs, y :: ys => do
    let z ← apply op x y
    let zs ← applyAll op xs ys
    pure (z :: zs)
  | _, _ => .ok []

end

end InfixOp

end Formula
