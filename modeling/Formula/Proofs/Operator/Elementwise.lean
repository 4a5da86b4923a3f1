import Formula.Proofs.Operator.Tables

/-! # Arithmetic on nested arrays

Addition and its like go into two arrays of equal length, and into the arrays in these, side by side,
down to pairs of values they take as they are or refuse. So they succeed exactly on values of one
shape, with a result of that shape, and fail with the types of the first pair they refuse.
-/

namespace Formula

/-! ## Pairs -/

namespace Value

mutual

/-- The pairs of values met when going into two values side by side, from left to right: inside arrays
of equal length, and the two values themselves otherwise. -/
def pairs : (left right : Value) → List (Value × Value)
  | .array xs, .array ys =>
    if xs.length = ys.length then pairsAll xs ys else [(.array xs, .array ys)]
  | left, right => [(left, right)]

/-- The pairs met in the elements, place by place. -/
def pairsAll : (xs ys : List Value) → List (Value × Value)
  | x :: xs, y :: ys => pairs x y ++ pairsAll xs ys
  | _, _ => []

end

theorem pairs_of_not_arrays {left right : Value} (h : left.kind ≠ .array ∨ right.kind ≠ .array) :
    left.pairs right = [(left, right)] := by
  cases left <;> cases right <;> simp_all [pairs, kind]

theorem pairs_arrays {xs ys : List Value} (hlength : xs.length = ys.length) :
    (Value.array xs).pairs (.array ys) = pairsAll xs ys := by
  rw [pairs, if_pos hlength]

theorem pairs_arrays_of_ne {xs ys : List Value} (hlength : xs.length ≠ ys.length) :
    (Value.array xs).pairs (.array ys) = [(.array xs, .array ys)] := by
  rw [pairs, if_neg hlength]

theorem pairsAll_eq_flatMap (xs ys : List Value) :
    pairsAll xs ys = (xs.zip ys).flatMap fun pair => pair.1.pairs pair.2 := by
  induction xs generalizing ys with
  | nil => simp [pairsAll]
  | cons x xs ih =>
    cases ys with
    | nil => simp [pairsAll]
    | cons y ys => simp [pairsAll, ih]

end Value

namespace InfixOp

/-! ## Values of one shape -/

/-- The operator takes the pair as it is: two numbers, or, if it is addition, a text beside any
value. -/
def Takes (op : InfixOp) (pair : Value × Value) : Prop :=
  pair.1.kind = .number ∧ pair.2.kind = .number ∨
    op = .add ∧ (pair.1.kind = .text ∨ pair.2.kind = .text)

instance (op : InfixOp) (pair : Value × Value) : Decidable (op.Takes pair) :=
  inferInstanceAs (Decidable (_ ∨ _))

/-- The operator takes the two values, or they are arrays of equal length whose elements fit it place
by place. -/
inductive Fits (op : InfixOp) : Value → Value → Prop where
  | taken {left right : Value} (h : op.Takes (left, right)) : Fits op left right
  | arrays {xs ys : List Value} (hlength : xs.length = ys.length)
      (h : ∀ pair ∈ xs.zip ys, Fits op pair.1 pair.2) : Fits op (.array xs) (.array ys)

mutual

/-- The third value is what the operator makes of the two others: the joined text where addition meets
a text, the number computed from two numbers, and an array of such values from two arrays. -/
inductive Combines (op : InfixOp) : Value → Value → Value → Prop where
  | joined {left right : Value} (hop : op = .add) (h : left.kind = .text ∨ right.kind = .text) :
      Combines op left right (.text (left.display ++ right.display))
  | computed {f : Float → Float → Float} (hop : op.arithmetic? = some f) (x y : Float) :
      Combines op (.number x) (.number y) (.number (f x y))
  | arrays {xs ys zs : List Value} (h : CombinesAll op xs ys zs) :
      Combines op (.array xs) (.array ys) (.array zs)

/-- The lists are of one length, and the values of the third are what the operator makes of those of
the two others, place by place. -/
inductive CombinesAll (op : InfixOp) : List Value → List Value → List Value → Prop where
  | nil : CombinesAll op [] [] []
  | cons {x y z : Value} {xs ys zs : List Value} (h : Combines op x y z)
      (hrest : CombinesAll op xs ys zs) : CombinesAll op (x :: xs) (y :: ys) (z :: zs)

end

/-- The first pair the operator does not take. -/
def misfit? (op : InfixOp) (pairs : List (Value × Value)) : Option (Value × Value) :=
  pairs.find? fun pair => ¬ op.Takes pair

variable {op : InfixOp} {left right v : Value} {xs ys zs : List Value}

theorem CombinesAll.length_eq (h : op.CombinesAll xs ys zs) : xs.length = ys.length := by
  induction xs generalizing ys zs with
  | nil =>
    cases h
    rfl
  | cons x xs ih =>
    cases h with
    | cons _ hrest => exact congrArg (· + 1) (ih hrest)

theorem Takes.not_arrays {pair : Value × Value} (h : op.Takes pair) :
    pair.1.kind ≠ .array ∨ pair.2.kind ≠ .array := by
  rcases h with ⟨hleft, _⟩ | ⟨_, hleft | hright⟩
  · exact Or.inl (by simp [hleft])
  · exact Or.inl (by simp [hleft])
  · exact Or.inr (by simp [hright])

/-- No pair is refused in values that fit. -/
theorem Fits.misfit?_eq_none (h : op.Fits left right) : op.misfit? (left.pairs right) = none := by
  have htakes : ∀ pair ∈ left.pairs right, op.Takes pair := by
    induction h with
    | taken h =>
      rw [Value.pairs_of_not_arrays h.not_arrays]
      intro pair hpair
      rw [List.mem_singleton.mp hpair]
      exact h
    | arrays hlength _ ih =>
      rw [Value.pairs_arrays hlength, Value.pairsAll_eq_flatMap]
      intro pair hpair
      obtain ⟨outer, houter, hinner⟩ := List.mem_flatMap.mp hpair
      exact ih outer houter pair hinner
  rw [misfit?, List.find?_eq_none]
  intro pair hpair
  simpa using htakes pair hpair

/-! ## What comes out -/

theorem arithmetic?_of_isElementwise (hop : op.isElementwise = true) :
    ∃ f, op.arithmetic? = some f := by
  cases op <;> simp_all [isElementwise, arithmetic?]

theorem apply_arrays (hop : op.isElementwise = true) (hlength : xs.length = ys.length) :
    op.apply (.array xs) (.array ys) = (op.applyAll xs ys).map .array := by
  rw [apply, if_pos ⟨hop, hlength⟩]

theorem apply_arrays_of_ne (hlength : xs.length ≠ ys.length) :
    op.apply (.array xs) (.array ys) = op.applyWhole (.array xs) (.array ys) := by
  rw [apply, if_neg fun h => hlength h.2]

theorem exists_apply_of_takes (hop : op.isElementwise = true) (h : op.Takes (left, right)) :
    ∃ v, op.apply left right = .ok v ∧ op.Combines left right v := by
  rcases h with ⟨hleft, hright⟩ | ⟨rfl, htext⟩
  · obtain ⟨x, rfl⟩ : ∃ x, left = .number x := Value.eq_number_of_kind hleft
    obtain ⟨y, rfl⟩ : ∃ y, right = .number y := Value.eq_number_of_kind hright
    obtain ⟨f, hf⟩ := arithmetic?_of_isElementwise hop
    exact ⟨_, apply_numbers_of_arithmetic hf x y, .computed hf x y⟩
  · exact ⟨_, apply_add_of_text htext, .joined rfl htext⟩

theorem applyWhole_of_not_takes (hop : op.isElementwise = true) (h : ¬ op.Takes (left, right)) :
    op.applyWhole left right = .error (op.mismatch left.kind right.kind) := by
  have hrows : op ≠ .eq ∧ op ≠ .ne ∧ op ≠ .like ∧ op.order? = none ∧ op.logic? = none := by
    cases op <;> simp_all [isElementwise, order?, logic?]
  obtain ⟨heq, hne, hlike, horder, hlogic⟩ := hrows
  rw [Takes, not_or] at h
  simp only [applyWhole, if_neg h.2, heq, hne, if_false, horder, hlike, hlogic]
  cases left <;> cases right <;> simp_all [Value.kind]

/-- Where the operator does not go into the two values, it takes them or refuses them. -/
theorem apply_cases_of_whole (hop : op.isElementwise = true)
    (hwhole : op.apply left right = op.applyWhole left right)
    (hpairs : left.pairs right = [(left, right)]) :
    (∃ v, op.apply left right = .ok v ∧ op.Combines left right v ∧ op.Fits left right) ∨
      ∃ pair, op.misfit? (left.pairs right) = some pair ∧
        op.apply left right = .error (op.mismatch pair.1.kind pair.2.kind) := by
  by_cases h : op.Takes (left, right)
  · obtain ⟨v, happly, hcombine⟩ := exists_apply_of_takes hop h
    exact Or.inl ⟨v, happly, hcombine, .taken h⟩
  · refine Or.inr ⟨(left, right), ?_, ?_⟩
    · rw [hpairs, misfit?, List.find?_cons_of_pos (by simpa using h)]
    · rw [hwhole, applyWhole_of_not_takes hop h]

mutual

/-- The operator comes to a combination of values that fit, or to the first misfit. -/
theorem apply_cases (hop : op.isElementwise = true) (left right : Value) :
    (∃ v, op.apply left right = .ok v ∧ op.Combines left right v ∧ op.Fits left right) ∨
      ∃ pair, op.misfit? (left.pairs right) = some pair ∧
        op.apply left right = .error (op.mismatch pair.1.kind pair.2.kind) := by
  cases left with
  | array xs =>
    cases right with
    | array ys =>
      by_cases hlength : xs.length = ys.length
      · rw [apply_arrays hop hlength, Value.pairs_arrays hlength]
        rcases applyAll_cases hop xs ys hlength with ⟨zs, hall, hcombine, hfits⟩ | ⟨pair, hpair, hall⟩
        · exact Or.inl ⟨.array zs, by rw [hall]; rfl, .arrays hcombine, .arrays hlength hfits⟩
        · exact Or.inr ⟨pair, hpair, by rw [hall]; rfl⟩
      · exact apply_cases_of_whole hop (apply_arrays_of_ne hlength)
          (Value.pairs_arrays_of_ne hlength)
    | number y | bool y | text y => exact apply_cases_of_whole hop rfl rfl
  | number x | bool x | text x => exact apply_cases_of_whole hop rfl rfl

theorem applyAll_cases (hop : op.isElementwise = true) (xs ys : List Value)
    (hlength : xs.length = ys.length) :
    (∃ zs, op.applyAll xs ys = .ok zs ∧ op.CombinesAll xs ys zs ∧
        ∀ pair ∈ xs.zip ys, op.Fits pair.1 pair.2) ∨
      ∃ pair, op.misfit? (Value.pairsAll xs ys) = some pair ∧
        op.applyAll xs ys = .error (op.mismatch pair.1.kind pair.2.kind) := by
  cases xs with
  | nil =>
    cases ys with
    | nil => exact Or.inl ⟨[], rfl, .nil, by simp⟩
    | cons y ys => cases hlength
  | cons x xs =>
    cases ys with
    | nil => cases hlength
    | cons y ys =>
      rw [applyAll, Value.pairsAll, misfit?, List.find?_append]
      rcases apply_cases hop x y with ⟨z, happly, hcombine, hfits⟩ | ⟨pair, hpair, happly⟩
      · -- nothing is refused in the first elements, so the first misfit is among the others
        have hnone := hfits.misfit?_eq_none
        rw [misfit?] at hnone
        rw [happly, hnone, Option.none_or]
        rcases applyAll_cases hop xs ys (Nat.succ.inj hlength) with
          ⟨zs, hall, hcombines, hrest⟩ | ⟨pair, hpair, hall⟩
        · refine Or.inl ⟨z :: zs, by rw [hall]; rfl, .cons hcombine hcombines, ?_⟩
          rw [List.zip_cons_cons, List.forall_mem_cons]
          exact ⟨hfits, hrest⟩
        · exact Or.inr ⟨pair, hpair, by rw [hall]; rfl⟩
      · rw [misfit?] at hpair
        exact Or.inr ⟨pair, by rw [hpair]; rfl, by rw [happly]; rfl⟩

end

mutual

theorem apply_of_combines (hop : op.isElementwise = true) {left right v : Value}
    (h : op.Combines left right v) : op.apply left right = .ok v := by
  cases h with
  | joined hadd htext =>
    subst hadd
    exact apply_add_of_text htext
  | computed hf x y => exact apply_numbers_of_arithmetic hf x y
  | arrays hall =>
    rw [apply_arrays hop hall.length_eq, applyAll_of_combinesAll hop hall]
    rfl

theorem applyAll_of_combinesAll (hop : op.isElementwise = true) {xs ys zs : List Value}
    (h : op.CombinesAll xs ys zs) : op.applyAll xs ys = .ok zs := by
  cases h with
  | nil => rfl
  | cons hfirst hrest =>
    rw [applyAll, apply_of_combines hop hfirst, applyAll_of_combinesAll hop hrest]
    rfl

end

/-- Addition, subtraction, multiplication, division and remainder succeed exactly on values that fit:
two numbers, for addition anything beside a text, and arrays of equal length whose elements fit. The
result is the combination of the two, of the same shape. If they fail, the error names the types of
the first pair that is refused. -/
theorem apply_elementwise (hop : op.isElementwise = true) (left right : Value) :
    ((∃ v, op.apply left right = .ok v) ↔ op.Fits left right) ∧
      (∀ v, op.apply left right = .ok v ↔ op.Combines left right v) ∧
      ∀ e, op.apply left right = .error e ↔
        ∃ pair, op.misfit? (left.pairs right) = some pair ∧
          e = op.mismatch pair.1.kind pair.2.kind := by
  rcases apply_cases hop left right with ⟨v, happly, hcombine, hfits⟩ | ⟨pair, hpair, happly⟩
  · refine ⟨iff_of_true ⟨v, happly⟩ hfits, ?_, ?_⟩
    · intro v'
      refine ⟨fun h => ?_, apply_of_combines hop⟩
      cases happly.symm.trans h
      exact hcombine
    · intro e
      refine iff_of_false ?_ ?_
      · rw [happly]
        nofun
      · rintro ⟨pair, hpair, _⟩
        cases hfits.misfit?_eq_none.symm.trans hpair
  · have hrefused : ∀ v, op.apply left right ≠ .ok v := by
      intro v
      rw [happly]
      nofun
    refine ⟨iff_of_false ?_ ?_, ?_, ?_⟩
    · rintro ⟨v, h⟩
      exact hrefused v h
    · intro hfits
      cases hfits.misfit?_eq_none.symm.trans hpair
    · intro v
      exact iff_of_false (hrefused v) fun h => hrefused v (apply_of_combines hop h)
    · intro e
      rw [happly]
      constructor
      · rintro ⟨⟩
        exact ⟨pair, hpair, rfl⟩
      · rintro ⟨pair', hpair', rfl⟩
        cases hpair.symm.trans hpair'
        rfl

theorem apply_elementwise_nested :
    InfixOp.add.isElementwise = true ∧ InfixOp.sub.isElementwise = true ∧
      InfixOp.add.apply (.array [.number 1, .array [.text "n"]])
          (.array [.number 2, .array [.bool true]]) =
        .ok (.array [.number (1 + 2), .array [.text ("n" ++ "true")]]) ∧
      InfixOp.sub.apply (.array [.array [], .array [.text "a", .bool true]])
          (.array [.array [], .array [.bool false, .number 1]]) =
        .error (.typeMismatch "-" "string" "boolean") := by
  refine ⟨rfl, rfl, ((apply_elementwise rfl _ _).2.1 _).mpr ?_,
    ((apply_elementwise rfl _ _).2.2 _).mpr ⟨(.text "a", .bool false), by decide, rfl⟩⟩
  have htexts : InfixOp.add.Combines (.text "n") (.bool true) (.text ("n" ++ "true")) :=
    .joined rfl (Or.inl rfl)
  exact .arrays (.cons (.computed rfl 1 2) (.cons (.arrays (.cons htexts .nil)) .nil))

end InfixOp

end Formula
