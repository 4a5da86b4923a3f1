import Formula.Evaluation
import Formula.Proofs.Operator.Tables
import Formula.Proofs.Recorded

/-! # Evaluation, operator by operator

The rules by which the value of a tree is made of the values of its parts.
-/

namespace Formula.Scope

variable {scope : Scope} {id : Option Int}

theorem evaluate_unary (op : PrefixOp) (operand : Tree) :
    scope.evaluate id (.unary op operand) =
      scope.evaluate id operand >>= fun value => Recorded.ofExcept (op.apply value) := rfl

/-- Both operands are evaluated if the left one never settles the result. -/
theorem evaluate_binary_of_eager {op : InfixOp} (hop : op.decisive? = none) (left right : Tree) :
    scope.evaluate id (.binary op left right) =
      scope.evaluate id left >>= fun a =>
        scope.evaluate id right >>= fun b => Recorded.ofExcept (op.apply a b) := by
  show (scope.evaluateWith _ id (.binary op left right)) = _
  simp only [Scope.evaluateWith, hop]
  rfl

/-- A left operand that settles the result is the result. -/
theorem evaluate_binary_of_settled {op : InfixOp} {decisive : Bool}
    (hop : op.decisive? = some decisive) {left : Tree} (right : Tree) {history : History}
    (hleft : (scope.evaluate id left history).1 = .ok (.bool decisive)) :
    (scope.evaluate id (.binary op left right) history).1 = .ok (.bool decisive) := by
  show (scope.evaluateWith _ id (.binary op left right) history).1 = _
  simp only [Scope.evaluateWith, hop]
  exact (Recorded.bind_fst_of_ok hleft).trans (by simp)

/-- Behind a left operand that does not settle the result, the operator is applied as it would be to
any two values. -/
theorem evaluate_binary_of_undecided {op : InfixOp} {decisive a : Bool} {b : Value}
    (hop : op.decisive? = some decisive) (ha : a ≠ decisive) {left right : Tree}
    {history : History}
    (hleft : (scope.evaluate id left history).1 = .ok (.bool a))
    (hright : ∀ history', (scope.evaluate id right history').1 = .ok b) :
    (scope.evaluate id (.binary op left right) history).1 = op.apply (.bool a) b := by
  show (scope.evaluateWith _ id (.binary op left right) history).1 = _
  simp only [Scope.evaluateWith, hop]
  refine (Recorded.bind_fst_of_ok hleft).trans ?_
  simp only [if_neg ha]
  refine (Recorded.bind_fst_of_ok (hright _)).trans ?_
  cases b with
  | bool b =>
    rw [InfixOp.apply_bools_of_decisive hop, if_neg ha]
    rfl
  | number x | text s | array items =>
    rw [InfixOp.apply_of_decisive_of_not_bools hop (Or.inr (by simp [Value.kind]))]
    rfl

/-- A left operand that does not settle the result leaves it to the right one. -/
theorem evaluate_binary_of_open {op : InfixOp} {decisive a b : Bool}
    (hop : op.decisive? = some decisive) (ha : a ≠ decisive) {left right : Tree}
    {history : History}
    (hleft : (scope.evaluate id left history).1 = .ok (.bool a))
    (hright : ∀ history', (scope.evaluate id right history').1 = .ok (.bool b)) :
    (scope.evaluate id (.binary op left right) history).1 = .ok (.bool b) := by
  rw [evaluate_binary_of_undecided hop ha hleft hright, InfixOp.apply_bools_of_decisive hop,
    if_neg ha]

/-- A left operand that is no truth value is refused before the right one is evaluated. The error has
the type the right one should be of. -/
theorem evaluate_binary_of_mistyped {op : InfixOp} {decisive : Bool}
    (hop : op.decisive? = some decisive) {a : Value} (ha : a.kind ≠ .bool) {left : Tree}
    (right : Tree) {history : History} (hleft : (scope.evaluate id left history).1 = .ok a) :
    (scope.evaluate id (.binary op left right) history).1 = .error (op.mismatch a.kind .bool) := by
  show (scope.evaluateWith _ id (.binary op left right) history).1 = _
  simp only [Scope.evaluateWith, hop]
  refine (Recorded.bind_fst_of_ok hleft).trans ?_
  cases a with
  | bool a => exact absurd rfl ha
  | number x | text s | array items => rfl

end Formula.Scope
