import Formula.CaseMode
import Formula.Text.Folding
import Formula.Value

/-! # Registries

The names an expression may use. Variables and functions are declared only; resolvers answer for them
when the expression is evaluated. A constant has its value here, and the parser puts it into the tree.
-/

namespace Formula

/-- Declared names, each list in the order of registration. -/
structure Registry where
  variableNames : List String := []
  constants : List (String × Value) := []
  functionNames : List String := []
deriving DecidableEq, Repr

/-- A declared name as it is written somewhere, with or without regard to case. -/
def namesMatch (sensitive : Bool) (declared written : String) : Bool :=
  if sensitive then declared = written else Text.sameFolded declared written

theorem namesMatch_self (sensitive : Bool) (name : String) : namesMatch sensitive name name = true := by
  cases sensitive with
  | true => simp [namesMatch]
  | false => exact Text.sameFolded_self name

theorem namesMatch_comm (sensitive : Bool) (a b : String) :
    namesMatch sensitive a b = namesMatch sensitive b a := by
  cases sensitive with
  | true => simp [namesMatch, eq_comm]
  | false => exact Text.sameFolded_comm a b

theorem namesMatch_trans {sensitive : Bool} {a b c : String} (hab : namesMatch sensitive a b = true)
    (hbc : namesMatch sensitive b c = true) : namesMatch sensitive a c = true := by
  cases sensitive with
  | true =>
    have heq : a = b := by simpa [namesMatch] using hab
    rw [heq]
    exact hbc
  | false => exact decide_eq_true ((of_decide_eq_true hab).trans (of_decide_eq_true hbc))

namespace Registry

/-- Nothing declared. -/
def empty : Registry := {}

/-- Declares a variable. -/
def addVariable (r : Registry) (name : String) : Registry :=
  { r with variableNames := r.variableNames ++ [name] }

/-- Declares a function. -/
def addFunction (r : Registry) (name : String) : Registry :=
  { r with functionNames := r.functionNames ++ [name] }

/-- The list with `value` under exactly this name: in the old place if there is one. -/
def put (name : String) (value : Value) : List (String × Value) → List (String × Value)
  | [] => [(name, value)]
  | entry :: rest =>
    if entry.1 = name then (name, value) :: rest else entry :: put name value rest

/-- Gives a constant its value, in place of any value it had under exactly this name. -/
def addConstant (r : Registry) (name : String) (value : Value) : Registry :=
  { r with constants := put name value r.constants }

/-- The value of a constant. A constant of exactly this name comes before all others. -/
def constant? (r : Registry) (mode : CaseMode) (name : String) : Option Value :=
  let exactly := r.constants.find? fun entry => entry.1 = name
  let matching := r.constants.find? fun entry => namesMatch mode.exactConstants entry.1 name
  (exactly.or matching).map (·.2)

/-- The name is that of a variable. -/
def hasVariable (r : Registry) (mode : CaseMode) (name : String) : Bool :=
  r.variableNames.any fun declared => namesMatch mode.exactVariables declared name

/-- The name is that of a function. -/
def hasFunction (r : Registry) (mode : CaseMode) (name : String) : Bool :=
  r.functionNames.any fun declared => namesMatch mode.exactFunctions declared name

end Registry

/-- All a parser has to know about names. -/
structure Names where
  constant? : String → Option Value
  isVariable : String → Bool
  isFunction : String → Bool

/-- The names of a registry under a case mode. -/
def Registry.names (r : Registry) (mode : CaseMode) : Names where
  constant? := r.constant? mode
  isVariable := r.hasVariable mode
  isFunction := r.hasFunction mode

end Formula
