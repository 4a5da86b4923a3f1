/-! # Folding and searching text

Names and keywords are compared up to the case of ASCII letters; any other character is compared as
it stands.
-/

namespace Formula.Text

/-- The text with every ASCII capital made small. -/
def fold (s : String) : List Char :=
  s.toList.map Char.toLower

/-- Equal up to the case of ASCII letters. -/
def sameFolded (a b : String) : Bool :=
  fold a = fold b

/-- `part` occurs somewhere in the text. -/
def occursIn (part : List Char) : List Char → Bool
  | [] => part.isEmpty
  | c :: rest => part.isPrefixOf (c :: rest) || occursIn part rest

/-- `part` occurs as one piece in `whole`. -/
def contains (whole part : String) : Bool :=
  occursIn part.toList whole.toList

theorem sameFolded_self (a : String) : sameFolded a a = true := by
  simp [sameFolded]

theorem sameFolded_comm (a b : String) : sameFolded a b = sameFolded b a := by
  simp [sameFolded, eq_comm]

end Formula.Text
