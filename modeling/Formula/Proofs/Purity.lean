import Formula.Proofs.Comparison

/-! # Pure scopes

Resolvers that keep no state of their own answer a question alike whenever it is put. Evaluation asks
nothing but resolvers, so in a scope with such resolvers its outcome does not depend on what has been
asked before, at any depth of nested groups.
-/

namespace Formula

theorem Resolver.isPure_ofVariables (number : Nat)
    (value? : String → Option Int → Option Value) : (ofVariables number value?).IsPure := by
  intro h h' q
  cases q <;> rfl

theorem Resolver.isPure_ofFunctions (number : Nat)
    (result? : String → List Value → Option Int → Option Value) :
    (ofFunctions number result?).IsPure := by
  intro h h' q
  cases q <;> rfl

/-- Pure resolvers that answer two questions alike have one last answer to both, whatever has been
asked before. -/
theorem Resolver.ask_eq_of_answers {rs : List Resolver} (hpure : ∀ r ∈ rs, r.IsPure) {q q' : Question}
    (hsame : ∀ r ∈ rs, ∀ h : History, r.answer h q = r.answer h q') (h h' : History) :
    (Resolver.ask q rs h).1 = (Resolver.ask q' rs h').1 := by
  induction rs generalizing h h' with
  | nil => rfl
  | cons r rs ih =>
    have hanswer : r.answer h q = r.answer h' q' :=
      (hsame r (by simp) h).trans (hpure r (by simp) h h' q')
    have hlater : (Resolver.ask q rs (h ++ [⟨r.number, q⟩])).1 =
        (Resolver.ask q' rs (h' ++ [⟨r.number, q'⟩])).1 :=
      ih (fun other hother => hpure other (by simp [hother]))
        (fun other hother => hsame other (by simp [hother])) _ _
    simp only [Resolver.ask, hanswer, hlater]

/-- The last answer of pure resolvers is the same whatever has been asked before. -/
theorem Resolver.ask_eq_of_isPure {rs : List Resolver} (hpure : ∀ r ∈ rs, r.IsPure) (q : Question)
    (h h' : History) : (Resolver.ask q rs h).1 = (Resolver.ask q rs h').1 :=
  ask_eq_of_answers hpure (fun _ _ _ => rfl) h h'

namespace Scope

/-- No resolver of the scope lets its answers depend on earlier questions. -/
def IsPure (scope : Scope) : Prop :=
  ∀ r ∈ scope.resolvers, r.IsPure

theorem IsPure.nested {scope : Scope} (hpure : scope.IsPure) : scope.nested.IsPure :=
  hpure

variable {scope : Scope}

/-- A question ends in its last answer. -/
theorem ask_fst (q : Question) (unresolved : Error) (h : History) :
    (scope.ask q unresolved h).1 =
      match (Resolver.ask q scope.resolvers h).1 with
      | some value => .ok value
      | none => .error unresolved := by
  unfold ask
  rcases Resolver.ask q scope.resolvers h with ⟨answer, record⟩
  cases answer <;> rfl

/-- Every resolver is on record for a question, answered or not. -/
theorem ask_snd (q : Question) (unresolved : Error) (h : History) :
    (scope.ask q unresolved h).2 = h ++ scope.resolvers.map fun r => ⟨r.number, q⟩ := by
  rw [← Resolver.ask_history]
  unfold ask
  rcases Resolver.ask q scope.resolvers h with ⟨answer, record⟩
  cases answer <;> rfl

/-- An error that stays where it is leaves the question as it is. -/
theorem shifted_ask (scope : Scope) (q : Question) {unresolved : Error} {distance : Nat}
    (hplace : unresolved.shifted distance = unresolved) :
    (scope.ask q unresolved).shifted distance = scope.ask q unresolved := by
  funext h
  refine Prod.ext ?_ ?_
  · rw [Recorded.shifted_apply_fst, ask_fst]
    cases (Resolver.ask q scope.resolvers h).1 with
    | none => exact congrArg Except.error hplace
    | some value => rfl
  · rfl

theorem steady_ask (hpure : scope.IsPure) (q : Question) (unresolved : Error) :
    (scope.ask q unresolved).Steady := by
  intro h h'
  rw [ask_fst, ask_fst, Resolver.ask_eq_of_isPure hpure q h h']

/-- The values of the elements of a group are steady, whatever groups stand in them. -/
theorem steady_elements (levels : Nat) (hpure : scope.IsPure) (id : Option Int) (group : Group) :
    (Scope.elements levels scope id group).Steady := by
  -- each scope is compared with itself
  refine (Recorded.Comparison.outcome History).elements
    (fun scope scope' => scope = scope' ∧ scope.IsPure) ?_ ?_ ⟨rfl, hpure⟩ levels id group
  · rintro scope _ ⟨rfl, hpure⟩
    exact ⟨rfl, hpure⟩
  · rintro scope _ elements elements' ⟨rfl, hpure⟩ helements id text
    refine (Recorded.Comparison.outcome History).bind (fun _ _ => rfl) ?_
    intro tree
    exact Recorded.Comparison.evaluateWith _ (steady_ask hpure) fun group _ => helements group

theorem steady_evaluate (hpure : scope.IsPure) (id : Option Int) (tree : Tree) :
    (scope.evaluate id tree).Steady :=
  Recorded.Comparison.evaluateWith (.outcome History) (steady_ask hpure)
    fun group _ => steady_elements groupLimit hpure id group

end Scope

end Formula
