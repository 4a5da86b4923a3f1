import Formula.Registry
import Formula.Token.Lexer
import Formula.Tree

/-! # The parser

Operators are parsed by precedence climbing, one token ahead of the text. The levels of parentheses,
right operands and prefix operators in one another come out of one budget, and the parsers within a
budget are built from those within the budget below it, so that the recursion is on the budget alone.
Arrays and calls are captured as raw text and do not touch it.
-/

namespace Formula

/-- How many levels of parentheses, right operands, prefix operators and enclosing groups an
expression may have. -/
def nestingLimit : Nat := 256

/-- How many arrays and calls may stand in one another. -/
def groupLimit : Nat := 64

namespace Parser

/-! ## State -/

/-- The token ahead, and the text behind it. -/
structure State where
  ahead : Option Token
  cursor : Cursor
deriving DecidableEq, Repr

end Parser

/-- A step of parsing that may fail. -/
abbrev Parser (α : Type) := StateT Parser.State (Except Error) α

namespace Parser

/-- Fails on a stretch of the text. -/
def fail {α : Type} (fault : Fault) (offset length : Nat) : Parser α :=
  throw (.positioned fault offset length)

/-- The token ahead, which stays where it is. -/
def peek : Parser (Option Token) :=
  return (← get).ahead

/-- Takes the token ahead. The one behind it is read first, so that its faults come first. -/
def next : Parser (Option Token) := fun s =>
  match s.cursor.next with
  | (.ok token, cursor) => .ok (s.ahead, ⟨token, cursor⟩)
  | (.error e, _) => .error e

/-- Fails where the lexer stands, for want of something. -/
def endOfText {α : Type} (wanted : Wanted) : Parser α := do
  fail (.endOfText wanted) (← get).cursor.position 0

/-! ## What the parsers depend on -/

/-- The declared names, the groups that enclose the text, and a number of turns no loop over the
tokens of the text can exceed. -/
structure Setting where
  names : Names
  depth : Nat
  turns : Nat

variable (setting : Setting)

/-! ## Groups and names -/

/-- Captures the group that `opening`, the token ahead, has opened. Its text is not read. -/
def group (opening : Char) (openedAt : Nat) : Parser Group := fun s =>
  if groupLimit ≤ setting.depth then
    .error (.positioned (.tooManyGroups groupLimit) openedAt 1)
  else
    match s.cursor.takeGroup opening openedAt with
    | (.error e, _) => .error e
    | (.ok (text, offset), cursor) =>
      match cursor.next with
      | (.error e, _) => .error e
      | (.ok token, cursor) => .ok (⟨text, offset⟩, ⟨token, cursor⟩)

/-- What a name stands for that is not called: a constant is put in for its value, a variable is
referred to. -/
def nameAlone (token : Token) : Parser Tree :=
  match setting.names.constant? token.text with
  | some value => pure (.literal value)
  | none =>
    if setting.names.isVariable token.text then pure (.reference token.text)
    else if setting.names.isFunction token.text then
      fail (.functionNotCalled token.text) token.position token.length
    else fail (.unknownIdentifier token.text) token.position token.length

/-- What a name stands for: a truth value, a call if it is that of a function and a parenthesis
follows, or else what it is by itself. -/
def name (token : Token) : Parser Tree := do
  if Text.sameFolded token.text "true" then pure (.literal (.bool true))
  else if Text.sameFolded token.text "false" then pure (.literal (.bool false))
  else
    match ← peek with
    | some opening =>
      if opening.isOpening "(" && setting.names.isFunction token.text then
        .call token.text <$> group setting '(' opening.position
      else nameAlone setting token
    | none => nameAlone setting token

/-! ## Operands -/

/-- The parenthesis opened at `openedAt` closes here. -/
def close (openedAt : Nat) : Parser Unit := do
  match ← next with
  | some token =>
    if token.text = ")" then pure ()
    else fail (.notClosed token.text openedAt) token.position token.length
  | none => fail (.unmatched '(') openedAt 1

/-- An operand without prefix operators; `inside` parses what stands between parentheses. -/
def primary (inside : Parser Tree) : Parser Tree := do
  match ← peek with
  | none => endOfText .expression
  | some token =>
    if token.isOpening "[" then .array <$> group setting '[' token.position
    else
      let _ ← next
      match token.kind with
      | .number x => pure (.literal (.number x))
      | .string => pure (.literal (.text token.text))
      | .identifier => name setting token
      | .opening => do
        let tree ← inside
        close token.position
        pure tree
      | .operator | .closing | .separator =>
        fail (.unexpectedToken token.text) token.position token.length

/-- An operand with its prefix operators. `below` parses the operand of a prefix operator, and is
missing where the budget is spent. -/
def operandOver (inside : Parser Tree) (below : Option (Parser Tree)) : Parser Tree := do
  match (← peek).bind Token.prefixOp? with
  | none => primary setting inside
  | some op =>
    let _ ← next
    if (← peek).isNone then endOfText (.operandAfter op)
    else
      match below with
      | some operand => .unary op <$> operand
      | none => fail .tooManyPrefixes (← get).cursor.position 0

/-! ## Operators -/

/-- The infix operators behind `left` that bind at least as tightly as `least`, from left to right.
The right operand of an operator holds only operators that bind tighter, as `right` parses them. -/
def climb (right : (least : Nat) → Parser Tree) (least : Nat) : (turns : Nat) → Tree → Parser Tree
  | 0, left => pure left
  | turns + 1, left => do
    match (← peek).bind Token.infixOp? with
    | none => pure left
    | some op =>
      if op.precedence < least then pure left
      else
        let _ ← next
        if (← peek).isNone then endOfText .operand
        else
          let operand ← right (op.precedence + 1)
          climb right least turns (.binary op left operand)

/-! ## The budget -/

/-- The parsers within a budget: of an operand, and of an expression whose operators bind at least as
tightly as `least`. -/
structure Stage where
  operand : Parser Tree
  expression : (least : Nat) → Parser Tree

/-- The budget is spent. -/
def tooDeep : Parser Tree := do
  fail (.tooDeep nestingLimit) (((← peek).map (·.position)).getD 0) 0

/-- The parsers within a budget of `n` levels. -/
def stage : (n : Nat) → Stage
  | 0 =>
    { operand := operandOver setting tooDeep none
      expression := fun _ => tooDeep }
  | n + 1 =>
    let below := stage n
    let expression (least : Nat) : Parser Tree := do
      let left ← below.operand
      climb below.expression least setting.turns left
    { operand := operandOver setting (expression 0) (some below.operand)
      expression }

/-- The first token is read before anything is asked of it. -/
def start (text : String) : Except Error State :=
  match (Cursor.ofText text).next with
  | (.ok token, cursor) => .ok ⟨token, cursor⟩
  | (.error e, _) => .error e

/-- An expression and nothing behind it. -/
def whole (budget : Nat) : Parser Tree := do
  let tree ← (stage setting budget).expression 0
  match ← peek with
  | none => pure tree
  | some token => fail (.unexpectedToken token.text) token.position token.length

end Parser

/-- Parses a text that stands inside `depth` groups. The groups count against the budget. -/
def Names.parse (names : Names) (depth : Nat) (text : String) : Except Error Tree := do
  let setting : Parser.Setting := { names, depth, turns := text.length + 1 }
  let state ← Parser.start text
  (Parser.whole setting (nestingLimit - depth)).run' state

end Formula
