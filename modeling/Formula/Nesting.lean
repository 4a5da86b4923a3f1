/-! # Nesting

How deep a place in a text lies inside brackets, parentheses and quotes. The depths may go below zero
where the text closes what it never opened; whoever reads the text decides what that means.
-/

namespace Formula

/-- Delimits strings. There is no way to write it inside one. -/
def quote : Char := '\''

/-- Separates the elements of arrays and the arguments of calls. -/
def separator : Char := ','

/-- Open brackets, open parentheses, and whether a string is open. -/
structure Nesting where
  brackets : Int := 0
  parens : Int := 0
  quoted : Bool := false
deriving DecidableEq, Repr

namespace Nesting

/-- The nesting at the start of a text. -/
def top : Nesting := {}

/-- The nesting behind `c`. A quote changes sides everywhere; brackets and parentheses count outside
strings only. -/
def advance (t : Nesting) (c : Char) : Nesting :=
  if c = quote then { t with quoted := !t.quoted }
  else if t.quoted then t
  else if c = '[' then { t with brackets := t.brackets + 1 }
  else if c = ']' then { t with brackets := t.brackets - 1 }
  else if c = '(' then { t with parens := t.parens + 1 }
  else if c = ')' then { t with parens := t.parens - 1 }
  else t

/-- The nesting behind a stretch of text. -/
def advanceAll (t : Nesting) (cs : List Char) : Nesting :=
  cs.foldl advance t

/-- Outside all brackets, parentheses and strings. -/
def isTop (t : Nesting) : Bool :=
  t.brackets = 0 && t.parens = 0 && !t.quoted

/-- The depth the delimiter `opening` counts. -/
def depth (t : Nesting) (opening : Char) : Int :=
  if opening = '[' then t.brackets else t.parens

/-- The nesting at every place of a text, from before its first character to behind its last. -/
def trail (t : Nesting) : List Char → List Nesting
  | [] => [t]
  | c :: cs => t :: trail (t.advance c) cs

@[simp]
theorem advanceAll_nil (t : Nesting) : t.advanceAll [] = t := rfl

@[simp]
theorem advanceAll_cons (t : Nesting) (c : Char) (cs : List Char) :
    t.advanceAll (c :: cs) = (t.advance c).advanceAll cs := rfl

@[simp]
theorem advanceAll_append (t : Nesting) (xs ys : List Char) :
    t.advanceAll (xs ++ ys) = (t.advanceAll xs).advanceAll ys := by
  simp [advanceAll]

end Nesting

end Formula
