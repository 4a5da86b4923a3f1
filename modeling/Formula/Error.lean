import Formula.Operator
import Formula.Value

/-! # Errors

Whatever can go wrong, from reading a text to compiling a predicate. An error that can be located
carries the stretch of text it is about, counted in characters; all others are about the expression
as a whole.
-/

namespace Formula

/-- What the parser was about to read when the text ended. -/
inductive Wanted where
  | expression
  | operand
  | operandAfter (op : PrefixOp)
deriving DecidableEq, Repr

/-- The words for it. -/
def Wanted.description : Wanted → String
  | .expression => "an expression"
  | .operand => "an operand"
  | .operandAfter op => "an operand after '" ++ op.symbol ++ "'"

/-- The faults that have a place in the text. -/
inductive Fault where
  | unterminatedString
  | unexpectedCharacter (c : Char)
  | missingExponentDigits
  | invalidNumber (lexeme : String)
  | unmatched (opening : Char)
  | endOfText (wanted : Wanted)
  | unexpectedToken (text : String)
  /-- Something else stands where the parenthesis opened at `opening` should close. -/
  | notClosed (found : String) (opening : Nat)
  | functionNotCalled (name : String)
  | unknownIdentifier (name : String)
  /-- Parentheses, operands and enclosing groups beyond the limit of `levels`. -/
  | tooDeep (levels : Nat)
  | tooManyPrefixes
  /-- Arrays and calls in one another beyond the limit of `levels`. -/
  | tooManyGroups (levels : Nat)
  /-- Reported by whoever evaluates the segments of an argument list. -/
  | reported (message : String)
deriving DecidableEq, Repr

/-- The message, without the place. -/
def Fault.message : Fault → String
  | .unterminatedString => "Unterminated string literal"
  | .unexpectedCharacter c => "Unexpected character '" ++ c.toString ++ "'"
  | .missingExponentDigits => "Missing exponent digits"
  | .invalidNumber lexeme => "Invalid number '" ++ lexeme ++ "'"
  | .unmatched opening => "Unmatched '" ++ opening.toString ++ "'"
  | .endOfText wanted => "Expected " ++ wanted.description ++ " but found end of expression"
  | .unexpectedToken text => "Unexpected token '" ++ text ++ "'"
  | .notClosed found opening =>
    "Expected ')' but found '" ++ found ++ "' (opening at offset " ++ toString opening ++ ")"
  | .functionNotCalled name => "Function '" ++ name ++ "' must be followed by '('"
  | .unknownIdentifier name => "Unknown identifier '" ++ name ++ "'"
  | .tooDeep levels =>
    "Expression too complex: exceeded maximum nesting depth of " ++ toString levels
  | .tooManyPrefixes => "Expression too complex: too many prefix operators"
  | .tooManyGroups levels =>
    "Expression too complex: exceeded maximum of " ++ toString levels ++ " nested arrays or calls"
  | .reported message => message

/-- Whether the fault is that a limit on the nesting was exceeded. -/
def Fault.isLimit : Fault → Bool
  | .tooDeep _ | .tooManyPrefixes | .tooManyGroups _ => true
  | _ => false

/-- Everything that can go wrong. Operators and types are given by the names they have in messages. -/
inductive Error where
  /-- A fault and the stretch of text it is about. -/
  | positioned (fault : Fault) (offset length : Nat)
  /-- No resolver knows the variable. -/
  | unresolvedVariable (name : String)
  /-- No resolver knows the function. -/
  | unresolvedFunction (name : String)
  /-- The operator does not take values of these types. -/
  | typeMismatch (op left right : String)
  /-- There is no expression to compile. -/
  | missingExpression
  /-- The operator has no meaning on operands of this type. -/
  | unsupportedOperator (op type : String)
  /-- The operator cannot be compiled, whatever the operands. -/
  | notImplemented (op : String)
  /-- The symbol is no operator. -/
  | unknownOperator (op : String)
  /-- What was compiled is no test. -/
  | notAPredicate (type : String)
  /-- The binder gives the name no meaning. -/
  | unboundReference (name : String)
deriving DecidableEq, Repr

/-- Decides whether two computations ended alike. -/
instance {α : Type} [DecidableEq α] : DecidableEq (Except Error α)
  | .ok a, .ok b => decidable_of_iff (a = b) (by simp)
  | .error e, .error e' => decidable_of_iff (e = e') (by simp)
  | .ok _, .error _ | .error _, .ok _ => isFalse (by simp)

namespace Error

/-- The text of an error. -/
def message : Error → String
  | .positioned fault offset length =>
    fault.message ++ " (at offset " ++ toString offset ++ ", length " ++ toString length ++ ")"
  | .unresolvedVariable name => "variable '" ++ name ++ "' could not be resolved"
  | .unresolvedFunction name => "function '" ++ name ++ "' could not be resolved"
  | .typeMismatch op left right =>
    "operator '" ++ op ++ "' cannot be applied to " ++ left ++ " and " ++ right
  | .missingExpression => "a parsed expression is required"
  | .unsupportedOperator op type => op ++ " operator not supported for " ++ type
  | .notImplemented op => "operator '" ++ op ++ "' is not implemented"
  | .unknownOperator op => "unknown operator '" ++ op ++ "'"
  | .notAPredicate type => "expression of type " ++ type ++ " cannot be used as a predicate"
  | .unboundReference name => "no binding for reference '" ++ name ++ "'"

/-- The same error seen from a text in which the old one begins `distance` characters in. -/
def shifted (distance : Nat) : Error → Error
  | .positioned fault offset length => .positioned fault (offset + distance) length
  | e => e

/-- Where the error is, if it has a place. -/
def span? : Error → Option (Nat × Nat)
  | .positioned _ offset length => some (offset, length)
  | _ => none

@[simp]
theorem shifted_zero (e : Error) : e.shifted 0 = e := by
  cases e <;> rfl

@[simp]
theorem shifted_shifted (e : Error) (m n : Nat) : (e.shifted m).shifted n = e.shifted (m + n) := by
  cases e <;> simp [shifted, Nat.add_assoc]

end Error

end Formula
