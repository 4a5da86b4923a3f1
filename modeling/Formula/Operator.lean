import Formula.Text.Folding

/-! # Operators

The closed sets of prefix and infix operators, their spellings and how tightly they bind. Several
spellings may stand for one operator; `symbol` is the one used in messages and renderings.
-/

namespace Formula

/-- The prefix operators. -/
inductive PrefixOp where
  /-- Leaves any operand as it is. -/
  | plus
  | negate
  /-- Negates a truth value, or the bits of a number. -/
  | not
  /-- Another spelling of `not` with a symbol of its own. -/
  | complement
deriving DecidableEq, Repr

namespace PrefixOp

/-- The spellings. -/
def spellings : List (String × PrefixOp) :=
  [("+", .plus), ("-", .negate), ("!", .not), ("~", .complement)]

/-- The operator spelled `s`. -/
def ofSymbol? (s : String) : Option PrefixOp :=
  spellings.lookup s

/-- How the operator is written. -/
def symbol : PrefixOp → String
  | .plus => "+"
  | .negate => "-"
  | .not => "!"
  | .complement => "~"

theorem ofSymbol?_symbol (op : PrefixOp) : ofSymbol? op.symbol = some op := by
  cases op <;> decide

end PrefixOp

/-- The infix operators. -/
inductive InfixOp where
  | mul
  | div
  | rem
  | add
  | sub
  | shiftRight
  | shiftLeft
  | lt
  | le
  | gt
  | ge
  /-- The left text contains the right one. -/
  | like
  | eq
  | ne
  /-- Asks for both operands, on truth values too. -/
  | bitAnd
  /-- Asks for both operands, on truth values too. -/
  | bitOr
  | bitXor
  /-- Leaves the right operand alone when the left is false. -/
  | and
  /-- Leaves the right operand alone when the left is true. -/
  | or
deriving DecidableEq, Repr

namespace InfixOp

/-- The spellings that are compared as they stand. -/
def spellings : List (String × InfixOp) :=
  [("*", .mul), ("/", .div), ("%", .rem), ("+", .add), ("-", .sub), (">>", .shiftRight),
   ("<<", .shiftLeft), ("<", .lt), ("<=", .le), (">", .gt), (">=", .ge), ("==", .eq), ("=", .eq),
   ("<>", .ne), ("!=", .ne), ("&", .bitAnd), ("|", .bitOr), ("^", .bitXor), ("&&", .and),
   ("||", .or)]

/-- The operators spelled as words, in any case of the letters. -/
def keywords : List (String × InfixOp) :=
  [("like", .like), ("and", .and), ("or", .or)]

/-- The operator spelled `s`. -/
def ofSymbol? (s : String) : Option InfixOp :=
  match spellings.lookup s with
  | some op => some op
  | none => (keywords.find? fun keyword => Text.sameFolded keyword.1 s).map (·.2)

/-- How the operator is written. -/
def symbol : InfixOp → String
  | .mul => "*"
  | .div => "/"
  | .rem => "%"
  | .add => "+"
  | .sub => "-"
  | .shiftRight => ">>"
  | .shiftLeft => "<<"
  | .lt => "<"
  | .le => "<="
  | .gt => ">"
  | .ge => ">="
  | .like => "like"
  | .eq => "=="
  | .ne => "!="
  | .bitAnd => "&"
  | .bitOr => "|"
  | .bitXor => "^"
  | .and => "and"
  | .or => "or"

/-- The operator that binds tighter has the higher precedence. -/
def precedence : InfixOp → Nat
  | .or => 1
  | .and => 2
  | .bitOr => 3
  | .bitXor => 4
  | .bitAnd => 5
  | .eq | .ne | .like => 6
  | .lt | .le | .gt | .ge => 7
  | .shiftLeft | .shiftRight => 8
  | .add | .sub => 9
  | .mul | .div | .rem => 10

theorem ofSymbol?_symbol (op : InfixOp) : ofSymbol? op.symbol = some op := by
  cases op <;> decide

end InfixOp

end Formula
