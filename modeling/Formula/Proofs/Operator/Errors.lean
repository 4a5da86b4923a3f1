import Formula.Predicate

/-! # Errors of operators

An operator knows nothing of the text it was read from, so its errors have no place, whether it is
applied to values or to compiled parts.
-/

namespace Formula

theorem PrefixOp.span?_of_apply {op : PrefixOp} {v : Value} {e : Error}
    (h : op.apply v = .error e) : e.span? = none := by
  unfold apply at h
  split at h
  all_goals cases h
  rfl

namespace InfixOp

variable {op : InfixOp}

theorem span?_of_applyWhole {a b : Value} {e : Error} (h : op.applyWhole a b = .error e) :
    e.span? = none := by
  simp only [applyWhole] at h
  repeat' split at h
  all_goals cases h
  all_goals rfl

mutual

theorem span?_of_apply {a b : Value} {e : Error} (h : op.apply a b = .error e) :
    e.span? = none := by
  cases a with
  | array xs =>
    cases b with
    | array ys =>
      rw [apply] at h
      split at h
      · cases hall : op.applyAll xs ys with
        | ok zs =>
          rw [hall] at h
          cases h
        | error e' =>
          rw [hall] at h
          cases h
          exact span?_of_applyAll hall
      · exact span?_of_applyWhole h
    | _ => exact span?_of_applyWhole h
  | _ => exact span?_of_applyWhole h

theorem span?_of_applyAll {xs ys : List Value} {e : Error} (h : op.applyAll xs ys = .error e) :
    e.span? = none := by
  cases xs with
  | nil => simp [applyAll] at h
  | cons x xs =>
    cases ys with
    | nil => simp [applyAll] at h
    | cons y ys =>
      rw [applyAll] at h
      cases hfirst : op.apply x y with
      | error e' =>
        rw [hfirst] at h
        cases h
        exact span?_of_apply hfirst
      | ok z =>
        cases hrest : op.applyAll xs ys with
        | error e' =>
          rw [hfirst, hrest] at h
          cases h
          exact span?_of_applyAll hrest
        | ok zs =>
          rw [hfirst, hrest] at h
          cases h

end

end InfixOp

namespace Compiled

variable {ρ : Type}

theorem span?_of_ofPrefix {op : PrefixOp} {x : Compiled ρ} {e : Error}
    (h : ofPrefix op x = .error e) : e.span? = none := by
  unfold ofPrefix at h
  split at h
  all_goals cases h
  rfl

theorem span?_of_equality {op : InfixOp} {negated : Bool} {x y : Compiled ρ} {e : Error}
    (h : equality op negated x y = .error e) : e.span? = none := by
  unfold equality at h
  split at h
  all_goals cases h
  rfl

theorem span?_of_ofInfix {op : InfixOp} {x y : Compiled ρ} {e : Error}
    (h : ofInfix op x y = .error e) : e.span? = none := by
  simp only [ofInfix] at h
  repeat' split at h
  all_goals first
    | exact span?_of_equality h
    | cases h
  all_goals rfl

end Compiled

theorem Predicate.span?_of_ofCompiled {ρ : Type} {x : Compiled ρ} {e : Error}
    (h : ofCompiled x = .error e) : e.span? = none := by
  unfold ofCompiled at h
  split at h
  all_goals cases h
  rfl

end Formula
