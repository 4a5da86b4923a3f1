import Formula.Proofs.Operator.Tables
import Formula.Proofs.Purity

/-! # Eager evaluation

Eager evaluation asks for both operands of every infix operator, those of `and` and `or` included. If
it comes to a value, evaluation comes to the same value, with some of its questions left out.
-/

namespace Formula

/-! ## The eager evaluator -/

namespace Scope

/-- The value of a tree, given how groups are evaluated. No operator leaves out its right operand. -/
def evaluateEagerlyWith (scope : Scope) (elements : Group → Asking (List Value)) (id : Option Int) :
    Tree → Asking Value
  | .literal value => pure value
  | .reference name => scope.ask (.lookup name id) (.unresolvedVariable name)
  | .unary op operand => do
    let value ← evaluateEagerlyWith scope elements id operand
    Recorded.ofExcept (op.apply value)
  | .binary op left right => do
    let a ← evaluateEagerlyWith scope elements id left
    let b ← evaluateEagerlyWith scope elements id right
    Recorded.ofExcept (op.apply a b)
  | .array group => do
    let items ← elements group
    pure (.array items)
  | .call name group => do
    let arguments ← elements group
    scope.ask (.call name arguments id) (.unresolvedFunction name)

/-- The values of the elements of a group, which are evaluated eagerly at every level. -/
def elementsEagerly : (levels : Nat) → (scope : Scope) → (id : Option Int) → Group →
    Asking (List Value)
  | 0, _, _, group =>
    throw (.positioned (.tooManyGroups groupLimit) (group.offset - 1) 1)
  | levels + 1, scope, id, group =>
    let inner := scope.nested
    let evaluate (text : String) (id : Option Int) : Asking Value := do
      let tree ← Recorded.ofExcept (inner.parse text)
      inner.evaluateEagerlyWith (elementsEagerly levels inner id) id tree
    (splitArguments evaluate id (some group.text)).shifted group.offset

/-- The value of a tree, all of it evaluated eagerly. -/
def evaluateEagerly (scope : Scope) (id : Option Int) (tree : Tree) : Asking Value :=
  scope.evaluateEagerlyWith (scope.elementsEagerly groupLimit id) id tree

end Scope

/-! ## Fewer questions -/

/-- Compares a computation with one that asks more: whenever the second succeeds, on any record, the
first succeeds alike, and asks some of the questions in the same order. -/
def Recorded.Comparison.fewer : Comparison History where
  Holds x y := ∀ h h' a, (y h').1 = .ok a → ∃ asked asked', x h = (.ok a, h ++ asked) ∧
    y h' = (.ok a, h' ++ asked') ∧ asked.Sublist asked'
  ofExcept := by
    intro α x h h' a hx
    have hrun : ∀ record : History, Recorded.ofExcept x record = (.ok a, record ++ []) := by
      intro record
      rw [List.append_nil, ← hx]
      rfl
    exact ⟨[], [], hrun h, hrun h', .refl []⟩
  bind := by
    intro α β x y f g hx hf h h' b hb
    obtain ⟨a, r', hy, hg⟩ := bind_eq_ok hb
    obtain ⟨asked, asked', hxa, hya, hfirst⟩ := hx h h' a (by rw [hy])
    cases hy.symm.trans hya
    obtain ⟨more, more', hfb, hgb, hsecond⟩ := hf a (h ++ asked) (h' ++ asked') b hg
    refine ⟨asked ++ more, asked' ++ more', ?_, ?_, hfirst.append hsecond⟩
    · rw [bind_of_ok hxa, hfb, List.append_assoc]
    · rw [bind_of_ok hya, hgb, List.append_assoc]
  shifted := by
    intro α x y distance hx h h' a ha
    have hmoved : ∀ {z : Recorded History α} {record record' : History},
        z record = (.ok a, record') → z.shifted distance record = (.ok a, record') := by
      intro z record record' hz
      unfold Recorded.shifted
      rw [hz]
      rfl
    have hy : (y h').1 = .ok a := by
      rw [shifted_apply_fst] at ha
      cases hrun : (y h').1 with
      | error e =>
        rw [hrun] at ha
        cases ha
      | ok a' =>
        rw [hrun] at ha
        exact ha
    obtain ⟨asked, asked', hxa, hya, hasked⟩ := hx h h' a hy
    exact ⟨asked, asked', hmoved hxa, hmoved hya, hasked⟩

namespace Scope

variable {scope : Scope} {id : Option Int} {elements elements' : Group → Asking (List Value)}

open Recorded.Comparison (fewer)

/-- Pure resolvers are all asked, and answer alike, whenever a question is put to them. -/
theorem fewer_ask (hpure : scope.IsPure) (q : Question) (unresolved : Error) :
    fewer.Holds (scope.ask q unresolved) (scope.ask q unresolved) := by
  intro h h' a ha
  have hrun : ∀ record, scope.ask q unresolved record =
      (.ok a, record ++ scope.resolvers.map fun r => ⟨r.number, q⟩) := by
    intro record
    have hended := (steady_ask hpure q unresolved record h').trans ha
    rw [← hended, ← ask_snd]
    rfl
  exact ⟨_, _, hrun h, hrun h', .refl _⟩

/-- An operand that is left out costs questions, but makes no difference. -/
theorem fewer_binary {op : InfixOp} {left right : Tree}
    (hleft : fewer.Holds (scope.evaluateWith elements id left)
      (scope.evaluateEagerlyWith elements' id left))
    (hright : fewer.Holds (scope.evaluateWith elements id right)
      (scope.evaluateEagerlyWith elements' id right)) :
    fewer.Holds (scope.evaluateWith elements id (.binary op left right))
      (scope.evaluateEagerlyWith elements' id (.binary op left right)) := by
  unfold evaluateWith evaluateEagerlyWith
  cases hop : op.decisive? with
  | none => exact fewer.bind hleft fun a => fewer.bind hright fun b => fewer.ofExcept _
  | some decisive =>
    intro h h' v hv
    obtain ⟨a, r', hy, hbehind⟩ := Recorded.bind_eq_ok hv
    obtain ⟨b, r'', hy', hv'⟩ := Recorded.bind_eq_ok hbehind
    -- eagerly applied, the operator succeeds on two truth values only
    have happly : op.apply a b = .ok v := hv'
    obtain ⟨x, y, rfl, rfl, hvalue⟩ := InfixOp.bools_of_apply_decisive hop happly
    obtain ⟨asked, asked', hx, hya, hfirst⟩ := hleft h h' _ (by rw [hy])
    cases hy.symm.trans hya
    obtain ⟨more, more', hx', hya', hsecond⟩ := hright (h ++ asked) (h' ++ asked') _ (by rw [hy'])
    cases hy'.symm.trans hya'
    rw [Recorded.bind_of_ok hx, Recorded.bind_of_ok hy, Recorded.bind_of_ok hy', happly, hvalue,
      List.append_assoc]
    by_cases hsettled : x = decisive
    · -- the questions of the right operand are left out
      refine ⟨asked, asked' ++ more', ?_, rfl, List.sublist_append_of_sublist_left hfirst⟩
      simp only [if_pos hsettled]
      rfl
    · refine ⟨asked ++ more, asked' ++ more', ?_, rfl, hfirst.append hsecond⟩
      simp only [if_neg hsettled]
      rw [Recorded.bind_of_ok hx', List.append_assoc]
      rfl

theorem fewer_evaluateWith (hpure : scope.IsPure)
    (helements : ∀ group, fewer.Holds (elements group) (elements' group)) (id : Option Int)
    (tree : Tree) :
    fewer.Holds (scope.evaluateWith elements id tree) (scope.evaluateEagerlyWith elements' id tree) := by
  induction tree with
  | literal value => exact fewer.pure value
  | reference name => exact fewer_ask hpure _ _
  | unary op operand ih => exact fewer.bind ih fun value => fewer.ofExcept _
  | binary op left right ihleft ihright => exact fewer_binary ihleft ihright
  | array group => exact fewer.bind (helements group) fun items => fewer.pure _
  | call name group => exact fewer.bind (helements group) fun arguments => fewer_ask hpure _ _

theorem fewer_elements (levels : Nat) (hpure : scope.IsPure) (id : Option Int) (group : Group) :
    fewer.Holds (Scope.elements levels scope id group) (elementsEagerly levels scope id group) := by
  -- on the levels: the texts in a group hold groups of one level less
  induction levels generalizing scope group with
  | zero => exact fewer.throw _
  | succ levels ih =>
    refine fewer.shifted group.offset (fewer.splitArguments ?_ (some group.text))
    intro text
    refine fewer.bind (fewer.ofExcept _) ?_
    intro tree
    exact fewer_evaluateWith hpure.nested (fun inner => ih hpure.nested inner) id tree

/-- What eager evaluation comes to, evaluation comes to, with no question that eager evaluation does
not ask, and in the same order. -/
theorem evaluate_of_evaluateEagerly (hpure : scope.IsPure) {id : Option Int} {tree : Tree}
    {history : History} {value : Value}
    (h : (scope.evaluateEagerly id tree history).1 = .ok value) :
    ∃ asked asked', scope.evaluate id tree history = (.ok value, history ++ asked) ∧
      scope.evaluateEagerly id tree history = (.ok value, history ++ asked') ∧
      asked.Sublist asked' := by
  exact fewer_evaluateWith hpure (fewer_elements groupLimit hpure id) id tree history history value h

/-- A scope with two flags that are always set. -/
def flagScope : Scope where
  registry := { variableNames := ["flag", "more"] }
  resolvers := [.ofVariables 0 fun _ _ => some (.bool true)]

theorem evaluate_of_evaluateEagerly_flag :
    flagScope.IsPure ∧
      (flagScope.evaluateEagerly none (.array ⟨"flag or more", 1⟩) []).1 =
        .ok (.array [.bool true]) ∧
      ∃ asked asked', flagScope.evaluate none (.array ⟨"flag or more", 1⟩) [] =
          (.ok (.array [.bool true]), [] ++ asked) ∧
        flagScope.evaluateEagerly none (.array ⟨"flag or more", 1⟩) [] =
          (.ok (.array [.bool true]), [] ++ asked') ∧
        asked.Sublist asked' := by
  have hpure : flagScope.IsPure := by
    intro r hr
    rw [List.mem_singleton.mp hr]
    exact Resolver.isPure_ofVariables _ _
  have heager : (flagScope.evaluateEagerly none (.array ⟨"flag or more", 1⟩) []).1 =
      .ok (.array [.bool true]) := by decide +kernel
  exact ⟨hpure, heager, evaluate_of_evaluateEagerly hpure heager⟩

end Scope

end Formula
