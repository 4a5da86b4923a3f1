/-! # Case modes

For each category of declared names, whether its names are matched with regard to case. Keywords and
truth values are part of the language and are matched in any case. A mode may carry bits that mean
nothing; they are kept, and nothing depends on them.
-/

namespace Formula

/-- The categories of names that are matched with regard to case. -/
structure CaseMode where
  exactConstants : Bool := false
  exactVariables : Bool := false
  exactFunctions : Bool := false
  /-- The bits without a meaning. -/
  spare : BitVec 5 := 0
deriving DecidableEq, Repr

namespace CaseMode

/-- No name is matched with regard to case. -/
def none : CaseMode := {}

/-- All names are matched with regard to case. -/
def all : CaseMode := { exactConstants := true, exactVariables := true, exactFunctions := true }

end CaseMode

end Formula
