import Formula.Operator.Apply

/-! # Operators row by row

What an infix operator makes of two values, one rule for each table that gives it a meaning: joining
texts, equality, and the tables for numbers, texts and truth values.
-/

namespace Formula

theorem Value.eq_bool_of_kind {v : Value} (h : v.kind = .bool) : ∃ x, v = .bool x := by
  cases v with
  | bool x => exact ⟨x, rfl⟩
  | number x | text s | array items => cases h

theorem Value.eq_number_of_kind {v : Value} (h : v.kind = .number) : ∃ x, v = .number x := by
  cases v with
  | number x => exact ⟨x, rfl⟩
  | bool x | text s | array items => cases h

namespace InfixOp

variable {op : InfixOp}

/-- Arrays are taken as wholes unless the operator goes into two of them. -/
theorem apply_eq_applyWhole {a b : Value}
    (h : a.kind ≠ .array ∨ b.kind ≠ .array ∨ op.isElementwise = false) :
    op.apply a b = op.applyWhole a b := by
  cases a <;> cases b <;> simp_all [apply, Value.kind]

/-- Addition joins whatever stands beside a text. -/
theorem apply_add_of_text {a b : Value} (h : a.kind = .text ∨ b.kind = .text) :
    InfixOp.add.apply a b = .ok (.text (a.display ++ b.display)) := by
  rw [apply_eq_applyWhole (by rcases h with h | h <;> simp [h])]
  simp [applyWhole, h]

theorem apply_eq (a b : Value) : InfixOp.eq.apply a b = .ok (.bool (a.equal b)) := by
  rw [apply_eq_applyWhole (by simp [isElementwise])]
  simp [applyWhole]

theorem apply_ne (a b : Value) : InfixOp.ne.apply a b = .ok (.bool !(a.equal b)) := by
  rw [apply_eq_applyWhole (by simp [isElementwise])]
  simp [applyWhole]

theorem apply_numbers_of_arithmetic {f : Float → Float → Float} (h : op.arithmetic? = some f)
    (a b : Float) : op.apply (.number a) (.number b) = .ok (.number (f a b)) := by
  rw [apply_eq_applyWhole (by simp [Value.kind])]
  cases op <;> simp_all [applyWhole, arithmetic?, Value.kind]

theorem apply_numbers_of_order {order : Order} (h : op.order? = some order) (a b : Float) :
    op.apply (.number a) (.number b) = .ok (.bool (order.ofNumbers a b)) := by
  rw [apply_eq_applyWhole (by simp [Value.kind])]
  cases op <;> simp_all [applyWhole, arithmetic?, order?]

theorem apply_texts_of_order {order : Order} (h : op.order? = some order) (a b : String) :
    op.apply (.text a) (.text b) = .ok (.bool (order.ofTexts a b)) := by
  rw [apply_eq_applyWhole (by simp [Value.kind])]
  cases op <;> simp_all [applyWhole, order?]

theorem apply_like (a b : String) :
    InfixOp.like.apply (.text a) (.text b) = .ok (.bool (Text.contains a b)) := by
  rw [apply_eq_applyWhole (by simp [Value.kind])]
  simp [applyWhole, order?]

theorem apply_bools_of_logic {f : Bool → Bool → Bool} (h : op.logic? = some f) (a b : Bool) :
    op.apply (.bool a) (.bool b) = .ok (.bool (f a b)) := by
  rw [apply_eq_applyWhole (by simp [Value.kind])]
  cases op <;> simp_all [applyWhole, logic?]

/-- What settles the result of `and` or `or` is the result, and otherwise the right operand is. -/
theorem logic?_of_decisive {decisive : Bool} (h : op.decisive? = some decisive) :
    ∃ f, op.logic? = some f ∧ ∀ x y, f x y = if x = decisive then x else y := by
  cases op with
  | and =>
    cases h
    exact ⟨_, rfl, by decide⟩
  | or =>
    cases h
    exact ⟨_, rfl, by decide⟩
  | _ => cases h

/-- On truth values `and` and `or` leave the result to the right operand where the left one does not
settle it. -/
theorem apply_bools_of_decisive {decisive : Bool} (hop : op.decisive? = some decisive) (x y : Bool) :
    op.apply (.bool x) (.bool y) = .ok (.bool (if x = decisive then x else y)) := by
  obtain ⟨f, hf, hlogic⟩ := logic?_of_decisive hop
  rw [apply_bools_of_logic hf, hlogic]

/-- Any other value beside `and` or `or` is refused, and the error names both types. -/
theorem apply_of_decisive_of_not_bools {decisive : Bool} {a b : Value}
    (hop : op.decisive? = some decisive) (h : a.kind ≠ .bool ∨ b.kind ≠ .bool) :
    op.apply a b = .error (op.mismatch a.kind b.kind) := by
  -- of the tables only that for truth values has a row for the operator
  have hothers : op.isElementwise = false ∧ op ≠ .add ∧ op ≠ .eq ∧ op ≠ .ne ∧ op ≠ .like ∧
      op.arithmetic? = none ∧ op.order? = none := by
    cases op <;> simp_all [decisive?, isElementwise, arithmetic?, order?]
  obtain ⟨hwhole, hadd, heq, hne, hlike, harithmetic, horder⟩ := hothers
  rw [apply_eq_applyWhole (Or.inr (Or.inr hwhole))]
  simp only [applyWhole, hadd, heq, hne, hlike, harithmetic, horder, false_and, if_false]
  cases a <;> cases b <;> simp_all [Value.kind]

/-- `and` and `or` take truth values only. -/
theorem bools_of_apply_decisive {decisive : Bool} {a b v : Value} (hop : op.decisive? = some decisive)
    (h : op.apply a b = .ok v) :
    ∃ x y, a = .bool x ∧ b = .bool y ∧ v = .bool (if x = decisive then x else y) := by
  by_cases hbools : a.kind = .bool ∧ b.kind = .bool
  · obtain ⟨x, rfl⟩ := Value.eq_bool_of_kind hbools.1
    obtain ⟨y, rfl⟩ := Value.eq_bool_of_kind hbools.2
    rw [apply_bools_of_decisive hop] at h
    cases h
    exact ⟨x, y, rfl, rfl, rfl⟩
  · rw [apply_of_decisive_of_not_bools hop (Decidable.not_and_iff_not_or_not.mp hbools)] at h
    cases h

end InfixOp

end Formula
