import Formula.Error

/-! # Trees

What a text is parsed into. Arrays and calls keep the raw text of their elements, which is cut and
parsed only when the tree is evaluated.
-/

namespace Formula

/-- The raw text between the delimiters of an array or a call, and where it begins in the text that
encloses it. -/
structure Group where
  text : String
  offset : Nat
deriving DecidableEq, Repr

/-- A parsed expression. -/
inductive Tree where
  /-- A number, text or truth value as written, or the value of a constant. -/
  | literal (value : Value)
  /-- A variable, spelled as written. -/
  | reference (name : String)
  | unary (op : PrefixOp) (operand : Tree)
  | binary (op : InfixOp) (left right : Tree)
  /-- The elements of an array. -/
  | array (elements : Group)
  /-- A function, spelled as written, and its arguments. -/
  | call (name : String) (arguments : Group)
deriving DecidableEq, Repr

namespace Tree

/-- The tree of a prefix operator given by its spelling. -/
def ofPrefix (symbol : String) (operand : Tree) : Except Error Tree :=
  match PrefixOp.ofSymbol? symbol with
  | some op => .ok (.unary op operand)
  | none => .error (.unknownOperator symbol)

/-- The tree of an infix operator given by its spelling. -/
def ofInfix (symbol : String) (left right : Tree) : Except Error Tree :=
  match InfixOp.ofSymbol? symbol with
  | some op => .ok (.binary op left right)
  | none => .error (.unknownOperator symbol)

/-- The tree with every operator before its operands. Raw text is not shown. -/
def polish : Tree → String
  | .literal (.text s) => "'" ++ s ++ "'"
  | .literal value => value.display
  | .reference name => name
  | .unary op operand => "(" ++ op.symbol ++ " " ++ operand.polish ++ ")"
  | .binary op left right =>
    "(" ++ op.symbol ++ " " ++ left.polish ++ " " ++ right.polish ++ ")"
  | .array _ => "[ArrayExpr]"
  | .call name _ => name ++ "([ArrayExpr])"

end Tree

end Formula
