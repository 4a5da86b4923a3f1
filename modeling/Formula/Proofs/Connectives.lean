import Formula.Proofs.Evaluation
import Formula.Proofs.Purity

/-! # The connectives

What `and` and `or` make of two values is said twice: by the table of operators, and by evaluation,
which leaves the right operand alone where it can. Behind a left operand that does not settle the
result the two agree on every value and on every error but one. A left operand that is no truth value
is refused before the right one is evaluated, so evaluation cannot name the type of the right one. It
names the type that is wanted there; the table names the type it finds.
-/

namespace Formula

theorem Kind.eq_of_name_eq {k k' : Kind} (h : k.name = k'.name) : k = k' := by
  revert h
  cases k <;> cases k' <;> decide

/-- The second type of a refusal can be read off it. -/
theorem InfixOp.eq_of_mismatch_eq {op : InfixOp} {k k' k'' : Kind}
    (h : op.mismatch k k' = op.mismatch k k'') : k' = k'' := by
  unfold mismatch at h
  injection h with _ _ hright
  exact Kind.eq_of_name_eq hright

namespace Scope

variable {scope : Scope} {id : Option Int} {op : InfixOp} {decisive : Bool} {left right : Tree}
  {a b : Value}

/-- Where the left operand does not settle the result, `and` and `or` come to what the operator makes
of the two values, exactly if one of these is a truth value. If the left one is none, both are refused:
by evaluation as if the right one were a truth value, by the operator with the types of both. -/
theorem evaluate_connective_eq_apply_iff (hpure : scope.IsPure) (hop : op.decisive? = some decisive)
    {before before' : History} (hleft : (scope.evaluate id left before).1 = .ok a)
    (hright : (scope.evaluate id right before').1 = .ok b) (hopen : a ≠ .bool decisive)
    (history : History) :
    ((scope.evaluate id (.binary op left right) history).1 = op.apply a b ↔
        a.kind = .bool ∨ b.kind = .bool) ∧
      (a.kind ≠ .bool →
        (scope.evaluate id (.binary op left right) history).1 =
            .error (op.mismatch a.kind .bool) ∧
          op.apply a b = .error (op.mismatch a.kind b.kind)) := by
  have hleft' : (scope.evaluate id left history).1 = .ok a :=
    (steady_evaluate hpure id left history before).trans hleft
  have hright' : ∀ later, (scope.evaluate id right later).1 = .ok b := by
    intro later
    exact (steady_evaluate hpure id right later before').trans hright
  by_cases ha : a.kind = .bool
  · obtain ⟨x, rfl⟩ := Value.eq_bool_of_kind ha
    have hx : x ≠ decisive := fun h => hopen (congrArg Value.bool h)
    have hsame := evaluate_binary_of_undecided hop hx hleft' hright'
    exact ⟨iff_of_true hsame (Or.inl ha), fun hnot => absurd ha hnot⟩
  · have hlazy := evaluate_binary_of_mistyped hop ha right hleft'
    have heager := InfixOp.apply_of_decisive_of_not_bools (b := b) hop (Or.inl ha)
    refine ⟨?_, fun _ => ⟨hlazy, heager⟩⟩
    rw [hlazy, heager]
    constructor
    · intro h
      injection h with h
      exact Or.inr (InfixOp.eq_of_mismatch_eq h).symm
    · intro h
      rw [h.resolve_left ha]

/-- A scope with a flag and a name, which is a text. -/
def guestScope : Scope where
  registry := { variableNames := ["invited", "name"] }
  resolvers := [.ofVariables 0 fun name _ =>
    some (if name = "invited" then .bool false else .text "Ada")]

theorem evaluate_connective_eq_apply_iff_guest :
    guestScope.IsPure ∧ InfixOp.or.decisive? = some true ∧
      (guestScope.evaluate none (.reference "invited") []).1 = .ok (.bool false) ∧
      (guestScope.evaluate none (.reference "name") []).1 = .ok (.text "Ada") ∧
      Value.bool false ≠ .bool true ∧
      (guestScope.evaluate none (.binary .or (.reference "invited") (.reference "name")) []).1 =
        InfixOp.or.apply (.bool false) (.text "Ada") := by
  have hpure : guestScope.IsPure := by
    intro r hr
    rw [List.mem_singleton.mp hr]
    exact Resolver.isPure_ofVariables _ _
  have hinvited : (guestScope.evaluate none (.reference "invited") []).1 = .ok (.bool false) := by
    decide +kernel
  have hname : (guestScope.evaluate none (.reference "name") []).1 = .ok (.text "Ada") := by
    decide +kernel
  refine ⟨hpure, rfl, hinvited, hname, by decide, ?_⟩
  exact (evaluate_connective_eq_apply_iff hpure rfl hinvited hname (by decide) []).1.mpr (Or.inl rfl)

/-- Two texts: evaluation takes the right one, which it has not seen, for a truth value. -/
theorem evaluate_connective_ne_apply_texts :
    IsPure {} ∧ (evaluate {} none (.literal (.text "a")) []).1 = .ok (.text "a") ∧
      (evaluate {} none (.literal (.text "b")) []).1 = .ok (.text "b") ∧
      Value.text "a" ≠ .bool false ∧
      (evaluate {} none (.binary .and (.literal (.text "a")) (.literal (.text "b"))) []).1 =
        .error (InfixOp.and.mismatch .text .bool) ∧
      InfixOp.and.apply (.text "a") (.text "b") = .error (InfixOp.and.mismatch .text .text) ∧
      (evaluate {} none (.binary .and (.literal (.text "a")) (.literal (.text "b"))) []).1 ≠
        InfixOp.and.apply (.text "a") (.text "b") := by
  refine ⟨?_, rfl, rfl, by decide, by decide +kernel, by decide +kernel, by decide +kernel⟩
  intro r hr
  exact absurd hr List.not_mem_nil

end Scope

end Formula
