import Formula.Proofs.Comparison
import Formula.Proofs.Tree.Lockstep

/-! # More declarations

More declared names, matched with less regard to case, do not change what could be parsed before. A
parser that knows less is lost where one that knows more takes a call, so it fails there; and whatever
did not fail at some place comes out as before, with the same questions asked.
-/

namespace Formula

/-! ## More names -/

theorem namesMatch_mono {sensitive sensitive' : Bool} {declared written : String}
    (hsensitive : sensitive' = true → sensitive = true)
    (h : namesMatch sensitive declared written = true) :
    namesMatch sensitive' declared written = true := by
  cases sensitive with
  | true =>
    have heq : declared = written := by simpa [namesMatch] using h
    rw [heq]
    exact namesMatch_self sensitive' written
  | false =>
    cases sensitive' with
    | true => cases hsensitive rfl
    | false => exact h

/-- The second scope is the first with more variables and functions declared, anywhere between the
others, which may be matched without regard to case where the first has regard to it. -/
structure Scope.ExtendedBy (scope scope' : Scope) : Prop where
  variableNames : scope.registry.variableNames.Sublist scope'.registry.variableNames
  functionNames : scope.registry.functionNames.Sublist scope'.registry.functionNames
  constants : scope'.registry.constants = scope.registry.constants
  exactConstants : scope'.mode.exactConstants = scope.mode.exactConstants
  exactVariables : scope'.mode.exactVariables = true → scope.mode.exactVariables = true
  exactFunctions : scope'.mode.exactFunctions = true → scope.mode.exactFunctions = true
  spare : scope'.mode.spare = scope.mode.spare
  resolvers : scope'.resolvers = scope.resolvers
  depth : scope'.depth = scope.depth

/-- Compares a parser with one that knows more names. -/
def Parser.Comparison.extension (depth : Nat) : Comparison depth where
  Same t t' := t = t'
  Lost s := ∃ opening, s.ahead = some opening ∧ opening.isOpening "(" = true
  Excused e := e.span? ≠ none
  literal _ := rfl
  array _ _ := rfl
  unary _ _ _ h := by rw [h]
  binary _ _ _ _ _ hleft hright := by rw [hleft, hright]
  stuck h := h
  excused _ _ _ _ := nofun

namespace Scope.ExtendedBy

variable {scope scope' : Scope} {written : String}

theorem nested (h : scope.ExtendedBy scope') : scope.nested.ExtendedBy scope'.nested where
  variableNames := h.variableNames
  functionNames := h.functionNames
  constants := h.constants
  exactConstants := h.exactConstants
  exactVariables := h.exactVariables
  exactFunctions := h.exactFunctions
  spare := h.spare
  resolvers := h.resolvers
  depth := congrArg (· + 1) h.depth

theorem constant?_eq (h : scope.ExtendedBy scope') :
    (scope'.registry.names scope'.mode).constant? = (scope.registry.names scope.mode).constant? := by
  funext written
  show Registry.constant? _ _ _ = Registry.constant? _ _ _
  unfold Registry.constant?
  rw [h.constants, h.exactConstants]

theorem isVariable (h : scope.ExtendedBy scope')
    (hvariable : (scope.registry.names scope.mode).isVariable written = true) :
    (scope'.registry.names scope'.mode).isVariable written = true := by
  obtain ⟨declared, hdeclared, hmatch⟩ := List.any_eq_true.mp hvariable
  exact List.any_eq_true.mpr
    ⟨declared, h.variableNames.subset hdeclared, namesMatch_mono h.exactVariables hmatch⟩

theorem isFunction (h : scope.ExtendedBy scope')
    (hfunction : (scope.registry.names scope.mode).isFunction written = true) :
    (scope'.registry.names scope'.mode).isFunction written = true := by
  obtain ⟨declared, hdeclared, hmatch⟩ := List.any_eq_true.mp hfunction
  exact List.any_eq_true.mpr
    ⟨declared, h.functionNames.subset hdeclared, namesMatch_mono h.exactFunctions hmatch⟩

/-! ### Parsing -/

theorem inStep_nameAlone (h : scope.ExtendedBy scope') {turns : Nat} {token : Token}
    {s : Parser.State} :
    (Parser.Comparison.extension scope.depth).InStep
      (Parser.nameAlone ⟨scope.registry.names scope.mode, scope.depth, turns⟩ token)
      (Parser.nameAlone ⟨scope'.registry.names scope'.mode, scope.depth, turns⟩ token) s := by
  unfold Parser.nameAlone
  rw [h.constant?_eq]
  cases (scope.registry.names scope.mode).constant? token.text with
  | some value => exact Parser.Comparison.inStep_pure rfl
  | none =>
    by_cases hvariable : (scope.registry.names scope.mode).isVariable token.text = true
    · simp only [hvariable, h.isVariable hvariable, if_true]
      exact Parser.Comparison.inStep_pure rfl
    · -- the first parser fails at the name
      simp only [hvariable]
      by_cases hfunction : (scope.registry.names scope.mode).isFunction token.text = true
      · simp only [hfunction]
        exact Or.inr nofun
      · simp only [hfunction]
        exact Or.inr nofun

/-- What is parsed stays as it is, and errors without a place do too. -/
theorem parse (h : scope.ExtendedBy scope') (text : String) :
    Parser.Ends (scope.parse text) (fun t => scope'.parse text = .ok t)
      fun e => scope'.parse text = .error e ∨ e.span? ≠ none := by
  have hname : ∀ turns token s, (Parser.Comparison.extension scope.depth).InStep
      (Parser.name ⟨scope.registry.names scope.mode, scope.depth, turns⟩ token)
      (Parser.name ⟨scope'.registry.names scope'.mode, scope.depth, turns⟩ token) s := by
    intro turns token s
    refine Parser.Comparison.inStep_name (Or.inl rfl) (fun _ _ => rfl) h.isFunction ?_ h.inStep_nameAlone
    intro opening hahead hopening _ _
    exact ⟨opening, hahead, hopening⟩
  have hstep := Parser.parse_inStep _ (Or.inl rfl) hname text
  unfold Scope.parse
  rw [h.depth]
  refine hstep.mono ?_ fun _ he => he
  rintro t ⟨t', hrun, rfl⟩
  exact hrun

end Scope.ExtendedBy

/-! ## The same evaluations -/

/-- Compares a computation with one that runs alike, unless the first fails at some place. -/
def Recorded.Comparison.unlessLocated (σ : Type) : Comparison σ where
  Holds x y := ∀ r, (∀ e, (x r).1 = .error e → e.span? = none) → y r = x r
  ofExcept _ _ _ := rfl
  bind hx hf := AlikeUnless.bind hx hf
  shifted distance hx := by
    refine AlikeUnless.shifted hx ?_
    intro e hplace
    cases e with
    | positioned fault offset length => cases hplace
    | _ => rfl

namespace Scope

variable {scope scope' : Scope}

theorem ExtendedBy.evaluateTextWith (h : scope.ExtendedBy scope')
    {elements elements' : Group → Asking (List Value)}
    (helements : ∀ group, (Recorded.Comparison.unlessLocated History).Holds (elements group)
      (elements' group)) (id : Option Int) (text : String) :
    (Recorded.Comparison.unlessLocated History).Holds (scope.evaluateTextWith elements id text)
      (scope'.evaluateTextWith elements' id text) := by
  have hparse := h.parse text
  unfold Scope.evaluateTextWith
  cases hrun : scope.parse text with
  | error e =>
    rw [hrun] at hparse
    intro history hplace
    rcases hparse with hrun' | hspan
    · rw [hrun']
      rfl
    · exact absurd (hplace e rfl) hspan
  | ok t =>
    rw [hrun] at hparse
    rw [show scope'.parse text = .ok t from hparse]
    refine Recorded.Comparison.evaluateWith _ ?_ fun group _ => helements group
    intro q unresolved history _
    unfold ask
    rw [h.resolvers]

/-- With more declarations, what was parsed is parsed into the same tree, and what had a value or an
error without a place has it still, by way of the same questions in the same order. -/
theorem conservative_of_extendedBy (h : scope.ExtendedBy scope') :
    (∀ text tree, scope.parse text = .ok tree → scope'.parse text = .ok tree) ∧
      ∀ text id history,
        (∀ e, (scope.evaluateText text id history).1 = .error e → e.span? = none) →
          scope'.evaluateText text id history = scope.evaluateText text id history := by
  constructor
  · intro text tree hrun
    have hparse := h.parse text
    rw [hrun] at hparse
    exact hparse
  · intro text id
    refine (Recorded.Comparison.unlessLocated History).evaluateText ExtendedBy ?_ ?_ h text id
    · exact fun _ _ h => h.nested
    · intro scope scope' elements elements' h helements id text
      exact h.evaluateTextWith helements id text

/-- A scope with a variable that is matched with regard to case. -/
def strictScope : Scope where
  registry := { variableNames := ["total"], functionNames := ["sum"] }
  mode := { exactVariables := true }

/-- The scope with more names, in any case. -/
def lenientScope : Scope where
  registry := { variableNames := ["and", "total"], functionNames := ["total", "sum", "like"] }

theorem conservative_of_extendedBy_lenient :
    strictScope.ExtendedBy lenientScope ∧
      lenientScope.parse "-sum(total)" = .ok (.unary .negate (.call "sum" ⟨"total", 5⟩)) ∧
      (strictScope.evaluateText "[1, total]" none []).1 = .error (.unresolvedVariable "total") ∧
      lenientScope.evaluateText "[1, total]" none [] =
        strictScope.evaluateText "[1, total]" none [] := by
  have hextended : strictScope.ExtendedBy lenientScope := by
    constructor
    · exact List.sublist_cons_self "and" ["total"]
    · exact .cons "total" (.cons_cons "sum" (List.nil_sublist ["like"]))
    · rfl
    · rfl
    · exact fun _ => rfl
    · exact fun h => h
    · rfl
    · rfl
    · rfl
  have hparse : strictScope.parse "-sum(total)" = .ok (.unary .negate (.call "sum" ⟨"total", 5⟩)) := by
    decide +kernel
  have hevaluate : (strictScope.evaluateText "[1, total]" none []).1 =
      .error (.unresolvedVariable "total") := by decide +kernel
  refine ⟨hextended, (conservative_of_extendedBy hextended).1 _ _ hparse, hevaluate, ?_⟩
  refine (conservative_of_extendedBy hextended).2 _ _ _ ?_
  intro e he
  cases hevaluate.symm.trans he
  rfl

end Scope

end Formula
