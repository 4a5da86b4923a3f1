import Formula.Decimal.Reading
import Formula.Nesting
import Formula.Text.Classes
import Formula.Token

/-! # The lexer

`scan` reads one lexeme at the head of a text; a `Cursor` moves over the text token by token, or over
the raw text of a group up to its closing delimiter. After a fault the cursor stands behind what was
read of the faulty lexeme.
-/

namespace Formula

/-! ## One lexeme -/

/-- What stands at the head of a text: the kind of the lexeme or its fault, what was read, and the
rest. Nothing is lost between `lexeme` and `rest`. -/
structure Scan where
  outcome : Except Fault Token.Kind
  lexeme : List Char
  rest : List Char

namespace Scan

/-- The exponent of a number, mark included: its characters, whether it has digits, the rest. -/
def exponent : List Char → List Char × Bool × List Char
  | [] => ([], true, [])
  | mark :: cs =>
    if mark = 'e' ∨ mark = 'E' then
      let (sign, digits) := match cs with
        | '+' :: rest => (['+'], rest)
        | '-' :: rest => (['-'], rest)
        | _ => ([], cs)
      let power := digits.takeWhile Decimal.isDigit
      (mark :: sign ++ power, !power.isEmpty, digits.dropWhile Decimal.isDigit)
    else ([], true, mark :: cs)

/-- The longest beginning of the form `digits* ['.' digits*]`, and the rest. -/
def mantissa (cs : List Char) : List Char × List Char :=
  let whole := cs.takeWhile Decimal.isDigit
  match cs.dropWhile Decimal.isDigit with
  | '.' :: rest => (whole ++ '.' :: rest.takeWhile Decimal.isDigit, rest.dropWhile Decimal.isDigit)
  | rest => (whole, rest)

/-- A number: the mantissa, and an exponent if one begins behind it. -/
def number (cs : List Char) : Scan :=
  let (front, rest) := mantissa cs
  let (back, complete, rest) := exponent rest
  let lexeme := front ++ back
  let outcome :=
    if complete then
      match Decimal.read? false lexeme with
      | some value => .ok (.number value)
      | none => .error (.invalidNumber (String.ofList lexeme))
    else .error .missingExponentDigits
  { outcome, lexeme, rest }

/-- A string, read from behind its opening quote to the next one. -/
def string (cs : List Char) : Scan :=
  let inside := cs.takeWhile (· ≠ quote)
  match cs.dropWhile (· ≠ quote) with
  | [] => { outcome := .error .unterminatedString, lexeme := quote :: inside, rest := [] }
  | _ :: rest => { outcome := .ok .string, lexeme := quote :: inside ++ [quote], rest }

/-- The operators of two characters. -/
def twoCharOperators : List (Char × Char) :=
  [('&', '&'), ('|', '|'), ('<', '='), ('>', '='), ('<', '>'), ('<', '<'), ('>', '>'), ('=', '='),
   ('!', '=')]

/-- The operators of one character. -/
def oneCharOperators : List Char :=
  ['+', '-', '*', '/', '%', '^', '!', '~', '&', '|', '<', '>', '=']

/-- An operator, the longer one where two begin alike; or a character that begins nothing. -/
def operator (c : Char) (cs : List Char) : Scan :=
  let single : Scan :=
    if c ∈ oneCharOperators then { outcome := .ok .operator, lexeme := [c], rest := cs }
    else { outcome := .error (.unexpectedCharacter c), lexeme := [], rest := c :: cs }
  match cs with
  | d :: rest =>
    if (c, d) ∈ twoCharOperators then { outcome := .ok .operator, lexeme := [c, d], rest }
    else single
  | [] => single

/-- The text begins with a digit. -/
def digitAhead : List Char → Bool
  | c :: _ => Decimal.isDigit c
  | [] => false

/-- The lexeme that begins with `c`. -/
def ofChar (c : Char) (cs : List Char) : Scan :=
  if Decimal.isDigit c || (c = '.' && digitAhead cs) then number (c :: cs)
  else if c = quote then string cs
  else if Text.startsName c then
    { outcome := .ok .identifier
      lexeme := c :: cs.takeWhile Text.continuesName
      rest := cs.dropWhile Text.continuesName }
  else if c = '(' ∨ c = '[' then { outcome := .ok .opening, lexeme := [c], rest := cs }
  else if c = ')' ∨ c = ']' then { outcome := .ok .closing, lexeme := [c], rest := cs }
  else if c = separator then { outcome := .ok .separator, lexeme := [c], rest := cs }
  else operator c cs

end Scan

/-- The text of a token: a string without its quotes, any other lexeme as it stands. -/
def Token.Kind.textOf (kind : Token.Kind) (lexeme : List Char) : String :=
  match kind with
  | .string => String.ofList (lexeme.drop 1).dropLast
  | _ => String.ofList lexeme

/-! ## Moving over a text -/

/-- What is still to be read, and how many characters lie behind. -/
structure Cursor where
  rest : List Char
  position : Nat
deriving DecidableEq, Repr

namespace Cursor

/-- At the start of a text. -/
def ofText (text : String) : Cursor :=
  ⟨text.toList, 0⟩

/-- Behind the blanks that stand here. -/
def skipBlanks (c : Cursor) : Cursor :=
  ⟨c.rest.dropWhile Text.isBlank, c.position + (c.rest.takeWhile Text.isBlank).length⟩

/-- The next token, or `none` at the end of the text. A fault is about what was read of the lexeme,
and about one character at least. -/
def next (c : Cursor) : Except Error (Option Token) × Cursor :=
  let start := c.skipBlanks
  match start.rest with
  | [] => (.ok none, start)
  | first :: others =>
    let scan := Scan.ofChar first others
    let length := scan.lexeme.length
    let behind : Cursor := ⟨scan.rest, start.position + length⟩
    match scan.outcome with
    | .ok kind =>
      (.ok (some { kind, text := kind.textOf scan.lexeme, position := start.position, length }),
        behind)
    | .error fault => (.error (.positioned fault start.position (max 1 length)), behind)

/-! ## Raw groups -/

/-- The raw text up to the delimiter that closes `opening`, and what follows that delimiter. -/
def untilClosed (opening : Char) : Nesting → List Char → Option (List Char × List Char)
  | _, [] => none
  | t, c :: cs =>
    let t := t.advance c
    if t.depth opening < 0 then some ([], cs)
    else (untilClosed opening t cs).map fun (inside, rest) => (c :: inside, rest)

/-- The raw text up to the delimiter that closes the `opening` just read, with the position it begins
at; the cursor moves behind that delimiter. If there is none, the fault is about the opening one and
the cursor moves to the end of the text. -/
def takeGroup (opening : Char) (openedAt : Nat) (c : Cursor) :
    Except Error (String × Nat) × Cursor :=
  match untilClosed opening .top c.rest with
  | some (inside, rest) =>
    (.ok (String.ofList inside, c.position), ⟨rest, c.position + inside.length + 1⟩)
  | none =>
    (.error (.positioned (.unmatched opening) openedAt 1), ⟨[], c.position + c.rest.length⟩)

/-! ## The tokens of a text -/

/-- The tokens found by at most `steps` calls of `next`, how the last of them ended, and where. -/
def tokensWithin : (steps : Nat) → Cursor → List Token × Except Error Unit × Cursor
  | 0, c => ([], .ok (), c)
  | steps + 1, c =>
    match c.next with
    | (.ok (some token), c) =>
      let (tokens, ending) := tokensWithin steps c
      (token :: tokens, ending)
    | (.ok none, c) => ([], .ok (), c)
    | (.error e, c) => ([], .error e, c)

/-- All tokens up to the end or the first fault. Every token takes a character at least, so there are
no more calls than characters and one. -/
def tokens (c : Cursor) : List Token × Except Error Unit × Cursor :=
  tokensWithin (c.rest.length + 1) c

end Cursor

end Formula
