import Formula.Operator.Apply
import Formula.Tree.Parser
import Formula.Resolver
import Formula.Segment

/-! # Evaluation

A tree is evaluated in a scope. References and calls are put to the resolvers; the elements of a group
are parsed and evaluated in a scope nested one level deeper, with the same names and resolvers.
-/

namespace Formula

/-- All that a nested evaluation takes over from the one around it, and the number of groups it
stands in. -/
structure Scope where
  registry : Registry := {}
  mode : CaseMode := {}
  resolvers : List Resolver := []
  depth : Nat := 0

/-- The scope of the elements of a group. -/
def Scope.nested (scope : Scope) : Scope :=
  { scope with depth := scope.depth + 1 }

/-- Parses a text that stands in the scope. -/
def Scope.parse (scope : Scope) (text : String) : Except Error Tree :=
  (scope.registry.names scope.mode).parse scope.depth text

/-- A computation that may put questions to resolvers. -/
abbrev Asking (α : Type) := Recorded History α

namespace Scope

variable (scope : Scope)

/-- The answer of the resolvers, or an error if there is none. -/
def ask (q : Question) (unresolved : Error) : Asking Value := fun h =>
  let (answer, h) := Resolver.ask q scope.resolvers h
  match answer with
  | some value => (.ok value, h)
  | none => (.error unresolved, h)

/-- The value of a tree, given how groups are evaluated. `and` and `or` take only truth values, and
ask for the right one only if the left one does not settle the result. -/
def evaluateWith (elements : Group → Asking (List Value)) (id : Option Int) : Tree → Asking Value
  | .literal value => pure value
  | .reference name => scope.ask (.lookup name id) (.unresolvedVariable name)
  | .unary op operand => do
    let value ← evaluateWith elements id operand
    Recorded.ofExcept (op.apply value)
  | .binary op left right => do
    let a ← evaluateWith elements id left
    match op.decisive? with
    | none =>
      let b ← evaluateWith elements id right
      Recorded.ofExcept (op.apply a b)
    | some decisive =>
      match a with
      | .bool settled =>
        if settled = decisive then pure (.bool settled)
        else
          match ← evaluateWith elements id right with
          | .bool b => pure (.bool b)
          | b => throw (op.mismatch .bool b.kind)
      | a => throw (op.mismatch a.kind .bool)
  | .array group => do
    let items ← elements group
    pure (.array items)
  | .call name group => do
    let arguments ← elements group
    scope.ask (.call name arguments id) (.unresolvedFunction name)

end Scope

/-- The values of the elements of a group that stands in the scope. The groups in them are evaluated
with one level less. Nothing is left at the last level: the parser refuses the groups that would need
one more. -/
def Scope.elements : (levels : Nat) → (scope : Scope) → (id : Option Int) → Group →
    Asking (List Value)
  | 0, _, _, group =>
    throw (.positioned (.tooManyGroups groupLimit) (group.offset - 1) 1)
  | levels + 1, scope, id, group =>
    let inner := scope.nested
    let evaluate (text : String) (id : Option Int) : Asking Value := do
      let tree ← Recorded.ofExcept (inner.parse text)
      inner.evaluateWith (Scope.elements levels inner id) id tree
    (splitArguments evaluate id (some group.text)).shifted group.offset

namespace Scope

variable (scope : Scope)

/-- The values of the elements of a group. -/
def evaluateGroup (id : Option Int) (group : Group) : Asking (List Value) :=
  Scope.elements groupLimit scope id group

/-- The value of a tree. -/
def evaluate (id : Option Int) (tree : Tree) : Asking Value :=
  scope.evaluateWith (scope.evaluateGroup id) id tree

/-- The value of a text. -/
def evaluateText (text : String) (id : Option Int) : Asking Value := do
  let tree ← Recorded.ofExcept (scope.parse text)
  scope.evaluate id tree

end Scope

end Formula
