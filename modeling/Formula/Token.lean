import Formula.Error

/-! # Tokens

What the lexer finds in a text: a lexeme, its kind and its place, counted in characters.
-/

namespace Formula

/-- The kinds of tokens. A number carries its value. -/
inductive Token.Kind where
  | number (value : Float)
  /-- A quoted string. -/
  | string
  /-- A name: a variable, constant, function, truth value, or an operator spelled as a word. -/
  | identifier
  | operator
  | opening
  | closing
  | separator
deriving DecidableEq, Repr

/-- A token. The text of a string is what stands between its quotes; `length` counts the quotes
too. -/
structure Token where
  kind : Token.Kind
  text : String
  position : Nat
  length : Nat
deriving DecidableEq, Repr

namespace Token

/-- The token is the delimiter `text`. -/
def isOpening (token : Token) (text : String) : Bool :=
  token.kind = .opening && token.text = text

/-- The prefix operator the token stands for, if it may be one. -/
def prefixOp? (token : Token) : Option PrefixOp :=
  match token.kind with
  | .operator => PrefixOp.ofSymbol? token.text
  | _ => none

/-- The infix operator the token stands for: a symbol, or a word. -/
def infixOp? (token : Token) : Option InfixOp :=
  match token.kind with
  | .operator | .identifier => InfixOp.ofSymbol? token.text
  | _ => none

end Token

end Formula
