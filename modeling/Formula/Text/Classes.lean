import Formula.Text.Letters
import Formula.Text.Numerals

/-! # Character classes

Blanks separate tokens, letters begin names, and letters and numerals continue them. The classes are
those of the character database; ASCII is decided without the tables.
-/

namespace Formula.Text

/-- `c` lies in one of the runs. -/
def inRanges (runs : List (Nat × Nat)) (c : Char) : Bool :=
  runs.any fun run => run.1 ≤ c.toNat && c.toNat ≤ run.2

/-- First and last code points of the runs of characters with the property `White_Space`. -/
def blankRanges : List (Nat × Nat) :=
  [(0x9, 0xD), (0x20, 0x20), (0x85, 0x85), (0xA0, 0xA0), (0x1680, 0x1680), (0x2000, 0x200A),
   (0x2028, 0x2029), (0x202F, 0x202F), (0x205F, 0x205F), (0x3000, 0x3000)]

/-- A blank only separates what stands around it. -/
def isBlank (c : Char) : Bool :=
  inRanges blankRanges c

/-- An alphabetic character. -/
def isLetter (c : Char) : Bool :=
  if c.toNat < 0x80 then c.isAlpha else inRanges letterRanges c

/-- A decimal digit, a letter number such as `Ⅷ`, or another numeric character such as `²`. -/
def isNumeral (c : Char) : Bool :=
  if c.toNat < 0x80 then c.isDigit else inRanges numeralRanges c

/-- A character a name may begin with. -/
def startsName (c : Char) : Bool :=
  isLetter c || c = '_'

/-- A character a name may go on with. The dot belongs to the name. -/
def continuesName (c : Char) : Bool :=
  isLetter c || isNumeral c || c = '_' || c = '.'

/-- Whatever begins a name may also stand inside one. -/
theorem continuesName_of_startsName {c : Char} (h : startsName c = true) :
    continuesName c = true := by
  grind [startsName, continuesName]

end Formula.Text
