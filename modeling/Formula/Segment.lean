import Formula.Error
import Formula.Nesting

/-! # Argument lists

The raw text of an array or a call is cut at its top-level commas, and the pieces are evaluated one by
one. An error in a piece is moved to where the piece stands in the whole.
-/

namespace Formula

/-- A computation that may fail and keeps its record in either case. -/
abbrev Recorded (σ α : Type) := ExceptT Error (StateM σ) α

namespace Recorded

variable {σ α : Type}

/-- The computation, its errors moved `distance` characters to the right. -/
def shifted (distance : Nat) (x : Recorded σ α) : Recorded σ α := fun record =>
  let (outcome, record) := x record
  (outcome.mapError (·.shifted distance), record)

/-- A computation without a record. -/
def ofExcept (x : Except Error α) : Recorded σ α := fun record =>
  (x, record)

end Recorded

/-- A piece of an argument list, and where it begins. -/
structure Segment where
  text : String
  start : Nat
deriving DecidableEq, Repr

namespace Segment

/-- The pieces of a text between the commas at which the nesting is on top. -/
def cut : Nesting → List Char → List (List Char)
  | _, [] => [[]]
  | t, c :: cs =>
    let t := t.advance c
    if c = separator ∧ t.isTop then [] :: cut t cs
    else (cut t cs).modifyHead (c :: ·)

/-- The pieces with their places, the first of which is `start`. -/
def place (start : Nat) : List (List Char) → List Segment
  | [] => []
  | piece :: rest => ⟨String.ofList piece, start⟩ :: place (start + piece.length + 1) rest

/-- The segments of an argument list. An empty list has none; otherwise there is one more than there
are commas to cut at. -/
def all (raw : String) : List Segment :=
  if raw.isEmpty then [] else place 0 (cut .top raw.toList)

end Segment

variable {σ : Type}

/-- Evaluates the segments in order, up to the first that fails. -/
def evaluateSegments (evaluate : String → Option Int → Recorded σ Value) (id : Option Int) :
    List Segment → Recorded σ (List Value)
  | [] => pure []
  | segment :: rest => do
    let value ← (evaluate segment.text id).shifted segment.start
    let values ← evaluateSegments evaluate id rest
    pure (value :: values)

/-- The values of an argument list; a list that is absent has none. -/
def splitArguments (evaluate : String → Option Int → Recorded σ Value) (id : Option Int)
    (raw : Option String) : Recorded σ (List Value) :=
  match raw with
  | none => pure []
  | some raw => evaluateSegments evaluate id (Segment.all raw)

end Formula
