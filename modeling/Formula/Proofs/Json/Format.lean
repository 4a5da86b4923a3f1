import Formula.Json
import Formula.Proofs.Token.Scan
import Formula.Text.Hex
import Mathlib.Data.List.Forall2

/-! # What is relied on of JSON

What the round trip of values takes for granted of the package that writes and reads JSON. Types without
a tag are written and read as they are declared. Printing is compact and escapes what a string cannot
hold as it is. Parsing takes every text that follows the grammar of JSON, as far as values are written
in it, to what it says. Numbers are left open: which texts stand for which of them is not assumed.
-/

namespace Formula.Json

/-! ## Documents -/

namespace Document

/-- What holds of an array if it holds of its elements, and of all else, holds of every document. -/
theorem induct {P : Document → Prop} (number : ∀ x, P (.number x)) (bool : ∀ b, P (.bool b))
    (text : ∀ s, P (.text s)) (array : ∀ items, (∀ item ∈ items, P item) → P (.array items))
    (document : Document) : P document :=
  @Document.rec P (fun items => ∀ item ∈ items, P item) number bool text array
    (fun _ h => absurd h List.not_mem_nil)
    (fun _ _ hhead htail => List.forall_mem_cons.mpr ⟨hhead, htail⟩) document

mutual

/-- How many arrays stand in one another, the document itself included. -/
def nesting : Document → Nat
  | .array items => nestingAll items + 1
  | .number _ | .bool _ | .text _ => 0

/-- The deepest nesting of the documents. -/
def nestingAll : List Document → Nat
  | [] => 0
  | document :: documents => max document.nesting (nestingAll documents)

end

theorem nesting_le_of_mem {document : Document} {items : List Document} (h : document ∈ items) :
    document.nesting ≤ nestingAll items := by
  induction items with
  | nil => cases h
  | cons item items ih =>
    rw [nestingAll]
    rcases List.mem_cons.mp h with rfl | hmem
    · exact Nat.le_max_left _ _
    · exact Nat.le_trans (ih hmem) (Nat.le_max_right _ _)

end Document

/-! ## The grammar -/

/-- The letters behind a backslash, and the characters they stand for. -/
def escapes : List (Char × Char) :=
  [('\x22', '\x22'), ('\\', '\\'), ('/', '/'), ('b', '\x08'), ('f', '\x0C'), ('n', '\n'),
   ('r', '\r'), ('t', '\t')]

/-- The ways of spelling a character in a string. -/
inductive SpellsChar : Char → List Char → Prop where
  /-- Quotes, backslashes and control characters do not stand for themselves. -/
  | plain {c : Char} (hquote : c ≠ '\x22') (hbackslash : c ≠ '\\') (hcontrol : ¬ c.toNat < 0x20) :
      SpellsChar c [c]
  | escaped {c letter : Char} (h : escapes.lookup letter = some c) : SpellsChar c ['\\', letter]
  /-- Four hexadecimal digits, in either case. -/
  | code {c d₁ d₂ d₃ d₄ : Char} (h : Text.hexNumber? [d₁, d₂, d₃, d₄] = some c.toNat) :
      SpellsChar c ['\\', 'u', d₁, d₂, d₃, d₄]

/-- The characters of a string between its quotes. -/
inductive SpellsChars : List Char → List Char → Prop where
  | nil : SpellsChars [] []
  | cons {c : Char} {chars front behind : List Char} (hc : SpellsChar c front)
      (hchars : SpellsChars chars behind) : SpellsChars (c :: chars) (front ++ behind)

/-- The ways of spelling a document without blanks. -/
inductive Package.Spells (json : Package) : Document → List Char → Prop where
  /-- A number is spelled as it is on its own. -/
  | number {x : Float} {cs : List Char} (hchars : ∀ c ∈ cs, Scan.IsNumeric c)
      (halone : json.parse (String.ofList cs) = some (.number x)) : Spells json (.number x) cs
  | true : Spells json (.bool true) "true".toList
  | false : Spells json (.bool false) "false".toList
  | text {s : String} {cs : List Char} (h : SpellsChars s.toList cs) :
      Spells json (.text s) ('\x22' :: cs ++ ['\x22'])
  | array {items : List Document} {pieces : List (List Char)}
      (h : List.Forall₂ (Spells json) items pieces) :
      Spells json (.array items) ('[' :: [','].intercalate pieces ++ [']'])

/-! ## Printing -/

/-- How a character is printed in a string. -/
def escape (c : Char) : List Char :=
  if c = '\x22' then ['\\', '\x22']
  else if c = '\\' then ['\\', '\\']
  else if c = '\x08' then ['\\', 'b']
  else if c = '\x0C' then ['\\', 'f']
  else if c = '\n' then ['\\', 'n']
  else if c = '\r' then ['\\', 'r']
  else if c = '\t' then ['\\', 't']
  else if c.toNat < 0x20 then
    ['\\', 'u', '0', '0', Nat.digitChar (c.toNat / 16), Nat.digitChar (c.toNat % 16)]
  else [c]

/-! ## Assumptions -/

namespace Package

/-- Values are written without a tag, and read as the first variant that fits. -/
structure IsUntagged (json : Package) : Prop where
  serialize : ∀ value, json.serialize value = value.content json.serialize
  deserialize : ∀ document, json.deserialize document =
    (Value.variants json.deserialize).findSome? fun variant => variant document

/-- Documents are printed without blanks. Of a finite number it is known which characters it has. -/
structure IsCompact (json : Package) : Prop where
  number : ∀ x, Number.isFinite x = true →
    ∀ c ∈ (json.print (.number x)).toList, Scan.IsNumeric c
  bool : ∀ b, json.print (.bool b) = if b then "true" else "false"
  text : ∀ s : String,
    (json.print (.text s)).toList = '\x22' :: s.toList.flatMap escape ++ ['\x22']
  array : ∀ items, json.print (.array items) = "[" ++ ",".intercalate (items.map json.print) ++ "]"

/-- What is spelled is parsed, with arrays at most 127 deep in one another. -/
def IsComplete (json : Package) : Prop :=
  ∀ document cs, json.Spells document cs → document.nesting ≤ 127 →
    json.parse (String.ofList cs) = some document

/-- An array fits no type but the last. -/
theorem findSome?_variants_array (inner : Document → Option Value) (items : List Document) :
    ((Value.variants inner).findSome? fun variant => variant (.array items)) =
      (items.mapM inner).map .array := by
  simp [Value.variants, Document.number?, Document.bool?, Document.text?, Document.array?]

end Package

end Formula.Json
