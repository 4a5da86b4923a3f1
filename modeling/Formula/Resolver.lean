import Formula.Value

/-! # Resolvers

The values of variables and the results of functions come from resolvers. Every question goes to all
of them, in the order of registration, and the last answer counts. What they have been asked is on
record, and an answer may depend on it: a resolver that keeps a state of its own is one whose answers
change as the record grows.
-/

namespace Formula

/-- What a resolver may be asked. The correlation id comes from whoever started the evaluation. -/
inductive Question where
  | lookup (name : String) (id : Option Int)
  | call (name : String) (arguments : List Value) (id : Option Int)
deriving DecidableEq, Repr

/-- A question put to the resolver of a number. -/
structure Inquiry where
  resolver : Nat
  question : Question
deriving DecidableEq, Repr

/-- All that has been asked, in order. -/
abbrev History := List Inquiry

/-- Answers questions, or leaves them to others. The number tells resolvers apart in the record. -/
structure Resolver where
  number : Nat
  answer : History → Question → Option Value

namespace Resolver

/-- Answers nothing. -/
def silent (number : Nat) : Resolver where
  number
  answer _ _ := none

/-- Answers for variables only. -/
def ofVariables (number : Nat) (value? : String → Option Int → Option Value) : Resolver where
  number
  answer
    | _, .lookup name id => value? name id
    | _, .call .. => none

/-- Answers for functions only. -/
def ofFunctions (number : Nat) (result? : String → List Value → Option Int → Option Value) :
    Resolver where
  number
  answer
    | _, .lookup .. => none
    | _, .call name arguments id => result? name arguments id

/-- The answers do not depend on what has been asked before. -/
def IsPure (r : Resolver) : Prop :=
  ∀ (h h' : History) (q : Question), r.answer h q = r.answer h' q

/-- Puts a question to every resolver in turn. The last answer counts. -/
def ask (q : Question) : List Resolver → History → Option Value × History
  | [], h => (none, h)
  | r :: rs, h =>
    let answer := r.answer h q
    let (later, h) := ask q rs (h ++ [⟨r.number, q⟩])
    (later.or answer, h)

/-- Every resolver is asked exactly once, in order. -/
theorem ask_history (q : Question) (rs : List Resolver) (h : History) :
    (ask q rs h).2 = h ++ rs.map fun r => ⟨r.number, q⟩ := by
  induction rs generalizing h with
  | nil => simp [ask]
  | cons r rs ih => simp [ask, ih]

end Resolver

end Formula
