import Formula.Value

/-! # Values as JSON

Writing JSON and reading it is the work of a package of its own, of which nothing is said here but how
it is used. Values are declared without a tag: a value is written as its content alone, and what is
read is taken for the first of the types that it fits, in the order of their declaration.
-/

namespace Formula

namespace Json

/-- What a JSON text says. Objects and `null` are left out, since no value has them. -/
inductive Document where
  | number (x : Float)
  | bool (b : Bool)
  | text (s : String)
  | array (items : List Document)
deriving Repr, Inhabited

namespace Document

/-- The number, if the document is one. -/
def number? : Document → Option Float
  | .number x => some x
  | _ => none

/-- The truth value, if the document is one. -/
def bool? : Document → Option Bool
  | .bool b => some b
  | _ => none

/-- The text, if the document is one. -/
def text? : Document → Option String
  | .text s => some s
  | _ => none

/-- The elements, if the document is an array. -/
def array? : Document → Option (List Document)
  | .array items => some items
  | _ => none

end Document

/-- A package that writes values as JSON and reads them from it. -/
structure Package where
  /-- What is said of a value. -/
  serialize : Value → Document
  /-- The text that says it. -/
  print : Document → String
  /-- What a text says, if it is JSON. -/
  parse : String → Option Document
  /-- The value that is said, if it is one. -/
  deserialize : Document → Option Value

namespace Package

variable (json : Package)

/-- The JSON of a value. -/
def write (value : Value) : String :=
  json.print (json.serialize value)

/-- The value of a JSON text. -/
def read (text : String) : Option Value :=
  (json.parse text).bind json.deserialize

end Package

end Json

namespace Value

open Json (Document)

/-- The content of a value, with `inner` for that of its elements. -/
def content (inner : Value → Document) : Value → Document
  | .number x => .number x
  | .bool b => .bool b
  | .text s => .text s
  | .array items => .array (items.map inner)

/-- What each type of values makes of a document, in the order of their declaration. The elements of an
array are read by `inner`, and all of them have to be values. -/
def variants (inner : Document → Option Value) : List (Document → Option Value) :=
  [fun document => document.number?.map .number,
   fun document => document.bool?.map .bool,
   fun document => document.text?.map .text,
   fun document => document.array?.bind fun items => (items.mapM inner).map .array]

end Value

end Formula
