import Formula.Proofs.Purity
import Formula.Proofs.Tree.Lockstep

/-! # Constants as variables

A constant may be taken out of a registry and declared as a variable, if one more resolver answers for
it with its value. The trees then differ where the constant was put in, and nowhere else, and every
text comes out the same.
-/

namespace Formula

/-- The resolver that is registered last has the last word. -/
theorem Resolver.ask_concat (q : Question) (rs : List Resolver) (r : Resolver) (h : History) :
    (ask q (rs ++ [r]) h).1 = (r.answer (ask q rs h).2 q).or (ask q rs h).1 := by
  induction rs generalizing h with
  | nil => simp [ask]
  | cons first rs ih =>
    simp only [List.cons_append, ask, ih]
    rw [Option.or_assoc]

/-! ## Looking up constants -/

namespace Registry

variable {mode : CaseMode} {r r' : Registry} {entries before after : List (String × Value)}
  {name written : String} {value : Value}

/-- No entry is found where none matches, with or without regard to case. -/
theorem find?_eq_none_of_not_matches
    (h : ∀ entry ∈ entries, namesMatch mode.exactConstants entry.1 written = false) :
    entries.find? (fun entry => entry.1 = written) = none ∧
      entries.find? (fun entry => namesMatch mode.exactConstants entry.1 written) = none := by
  constructor
  · rw [List.find?_eq_none]
    intro entry hentry hexact
    have hmatch := h entry hentry
    rw [of_decide_eq_true hexact, namesMatch_self] at hmatch
    cases hmatch
  · rw [List.find?_eq_none]
    intro entry hentry
    rw [h entry hentry]
    exact Bool.false_ne_true

theorem constant?_eq_none
    (h : ∀ entry ∈ r.constants, namesMatch mode.exactConstants entry.1 written = false) :
    r.constant? mode written = none := by
  obtain ⟨hexactly, hmatching⟩ := find?_eq_none_of_not_matches h
  unfold constant?
  rw [hexactly, hmatching]
  rfl

/-- A constant that alone matches a name is found under it. -/
theorem constant?_eq_some (hconstants : r.constants = before ++ (name, value) :: after)
    (h : ∀ entry ∈ before ++ after, namesMatch mode.exactConstants entry.1 written = false)
    (hname : namesMatch mode.exactConstants name written = true) :
    r.constant? mode written = some value := by
  have hbefore := find?_eq_none_of_not_matches fun entry hentry =>
    h entry (List.mem_append_left _ hentry)
  have hafter := find?_eq_none_of_not_matches fun entry hentry =>
    h entry (List.mem_append_right _ hentry)
  have hmatching : r.constants.find? (fun entry => namesMatch mode.exactConstants entry.1 written) =
      some (name, value) := by
    rw [hconstants, List.find?_append, hbefore.2, Option.none_or,
      List.find?_cons_of_pos (by exact hname)]
  -- the search with regard to case may find the constant or nothing, but no other
  have hexactly : r.constants.find? (fun entry => entry.1 = written) = some (name, value) ∨
      r.constants.find? (fun entry => entry.1 = written) = none := by
    rw [hconstants, List.find?_append, hbefore.1, Option.none_or]
    by_cases hexact : name = written
    · left
      rw [List.find?_cons_of_pos (by simpa using hexact)]
    · right
      rw [List.find?_cons_of_neg (by simpa using hexact), hafter.1]
  unfold constant?
  rcases hexactly with hexactly | hexactly
  · rw [hexactly]
    rfl
  · rw [hexactly, hmatching]
    rfl

/-- A constant does not matter to names that it does not match. -/
theorem constant?_of_not_matches (hconstants : r.constants = before ++ (name, value) :: after)
    (hothers : r'.constants = before ++ after)
    (hname : namesMatch mode.exactConstants name written = false) :
    r.constant? mode written = r'.constant? mode written := by
  have hexact : name ≠ written := by
    rintro rfl
    rw [namesMatch_self] at hname
    cases hname
  have hskip : ∀ p : String × Value → Bool, p (name, value) = false →
      r.constants.find? p = r'.constants.find? p := by
    intro p hp
    rw [hconstants, hothers, List.find?_append, List.find?_append,
      List.find?_cons_of_neg (by simp [hp])]
  unfold constant?
  rw [hskip _ (decide_eq_false hexact), hskip _ hname]

end Registry

/-! ## Unfolded trees -/

/-- The second tree is the first with names that count as `isName` in some of the places where the
first has `value`; other references stand in both. -/
inductive Tree.Unfolds (isName : String → Bool) (value : Value) : Tree → Tree → Prop where
  | literal (v : Value) : Unfolds isName value (.literal v) (.literal v)
  | folded {written : String} (h : isName written = true) :
      Unfolds isName value (.literal value) (.reference written)
  | reference {written : String} (h : isName written = false) :
      Unfolds isName value (.reference written) (.reference written)
  | unary (op : PrefixOp) {t t' : Tree} (h : Unfolds isName value t t') :
      Unfolds isName value (.unary op t) (.unary op t')
  | binary (op : InfixOp) {left left' right right' : Tree}
      (hleft : Unfolds isName value left left') (hright : Unfolds isName value right right') :
      Unfolds isName value (.binary op left right) (.binary op left' right')
  | array (group : Group) : Unfolds isName value (.array group) (.array group)
  | call (written : String) (group : Group) :
      Unfolds isName value (.call written group) (.call written group)

/-- Compares a parser that knows a constant with one that knows a variable in its place. -/
def Parser.Comparison.unfolding (isName : String → Bool) (value : Value) (depth : Nat) :
    Comparison depth :=
  strict (Tree.Unfolds isName value) (fun h => h ▸ .literal _) (fun _ => .array)
    (fun op _ _ => .unary op) fun op _ _ _ _ => .binary op

/-! ## Unfolded scopes -/

/-- The second scope is the first with a constant of one value taken out and declared as a variable,
for which the last of its resolvers answers with the value. No other constant matches the name, and
constants and variables are matched alike. -/
structure Scope.Unfolds (name : String) (value : Value) (scope scope' : Scope) : Prop where
  constants : ∃ before after, scope.registry.constants = before ++ (name, value) :: after ∧
    scope'.registry.constants = before ++ after ∧
      ∀ entry ∈ before ++ after, namesMatch scope.mode.exactConstants entry.1 name = false
  variableNames : ∀ declared, declared ∈ scope'.registry.variableNames ↔
    declared = name ∨ declared ∈ scope.registry.variableNames
  functionNames : scope'.registry.functionNames = scope.registry.functionNames
  mode : scope'.mode = scope.mode
  alike : scope.mode.exactConstants = scope.mode.exactVariables
  resolvers : ∃ number, scope'.resolvers = scope.resolvers ++
    [.ofVariables number fun written _ =>
      if namesMatch scope.mode.exactVariables name written then some value else none]
  depth : scope'.depth = scope.depth

namespace Scope.Unfolds

variable {name written : String} {value : Value} {scope scope' : Scope}

theorem nested (h : Unfolds name value scope scope') : Unfolds name value scope.nested scope'.nested where
  constants := h.constants
  variableNames := h.variableNames
  functionNames := h.functionNames
  mode := h.mode
  alike := h.alike
  resolvers := h.resolvers
  depth := congrArg (· + 1) h.depth

/-! ### Names -/

theorem constant?_of_matches (h : Unfolds name value scope scope')
    (hmatch : namesMatch scope.mode.exactConstants name written = true) :
    (scope.registry.names scope.mode).constant? written = some value ∧
      (scope'.registry.names scope'.mode).constant? written = none := by
  obtain ⟨before, after, hconstants, hothers, hnone⟩ := h.constants
  have hwritten : ∀ entry ∈ before ++ after,
      namesMatch scope.mode.exactConstants entry.1 written = false := by
    intro entry hentry
    rw [Bool.eq_false_iff]
    intro hentry'
    rw [namesMatch_comm] at hmatch
    have hboth := namesMatch_trans hentry' hmatch
    rw [hnone entry hentry] at hboth
    cases hboth
  constructor
  · exact Registry.constant?_eq_some hconstants hwritten hmatch
  · rw [h.mode]
    refine Registry.constant?_eq_none ?_
    rw [hothers]
    exact hwritten

theorem isVariable_of_matches (h : Unfolds name value scope scope')
    (hmatch : namesMatch scope.mode.exactConstants name written = true) :
    (scope'.registry.names scope'.mode).isVariable written = true := by
  rw [h.mode]
  refine List.any_eq_true.mpr ⟨name, (h.variableNames name).mpr (Or.inl rfl), ?_⟩
  rw [← h.alike]
  exact hmatch

theorem constant?_of_not_matches (h : Unfolds name value scope scope')
    (hmatch : namesMatch scope.mode.exactConstants name written = false) :
    (scope'.registry.names scope'.mode).constant? written =
      (scope.registry.names scope.mode).constant? written := by
  obtain ⟨before, after, hconstants, hothers, _⟩ := h.constants
  rw [h.mode]
  exact (Registry.constant?_of_not_matches hconstants hothers hmatch).symm

theorem isVariable_of_not_matches (h : Unfolds name value scope scope')
    (hmatch : namesMatch scope.mode.exactConstants name written = false) :
    (scope'.registry.names scope'.mode).isVariable written =
      (scope.registry.names scope.mode).isVariable written := by
  rw [h.mode, Bool.eq_iff_iff]
  show List.any _ _ = true ↔ List.any _ _ = true
  rw [List.any_eq_true, List.any_eq_true]
  constructor
  · rintro ⟨declared, hdeclared, hmatch'⟩
    rcases (h.variableNames declared).mp hdeclared with rfl | hdeclared
    · rw [← h.alike, hmatch] at hmatch'
      cases hmatch'
    · exact ⟨declared, hdeclared, hmatch'⟩
  · rintro ⟨declared, hdeclared, hmatch'⟩
    exact ⟨declared, (h.variableNames declared).mpr (Or.inr hdeclared), hmatch'⟩

theorem isFunction_eq (h : Unfolds name value scope scope') :
    (scope'.registry.names scope'.mode).isFunction = (scope.registry.names scope.mode).isFunction := by
  funext written
  show List.any _ _ = List.any _ _
  rw [h.functionNames, h.mode]

/-! ### Trees -/

/-- By themselves, names stand for the same, or for the constant in one scope and for the variable in
the other. -/
theorem inStep_nameAlone (h : Unfolds name value scope scope') {turns : Nat} {token : Token}
    {s : Parser.State} :
    (Parser.Comparison.unfolding (namesMatch scope.mode.exactConstants name) value
      scope.depth).InStep
        (Parser.nameAlone ⟨scope.registry.names scope.mode, scope.depth, turns⟩ token)
        (Parser.nameAlone ⟨scope'.registry.names scope'.mode, scope.depth, turns⟩ token) s := by
  by_cases hmatch : namesMatch scope.mode.exactConstants name token.text = true
  · obtain ⟨hsome, hnone⟩ := h.constant?_of_matches hmatch
    simp only [Parser.nameAlone, hsome, hnone, h.isVariable_of_matches hmatch, if_true]
    exact Parser.Comparison.inStep_pure (.folded hmatch)
  · rw [Bool.not_eq_true] at hmatch
    have hsame :
        Parser.nameAlone ⟨scope'.registry.names scope'.mode, scope.depth, turns⟩ token =
          Parser.nameAlone ⟨scope.registry.names scope.mode, scope.depth, turns⟩ token := by
      simp only [Parser.nameAlone, h.constant?_of_not_matches hmatch,
        h.isVariable_of_not_matches hmatch, h.isFunction_eq]
    rw [hsame]
    refine Parser.Comparison.inStep_self ?_
    exact Parser.meets_nameAlone (fun v _ => .literal v) (fun _ => .reference hmatch)
      (fun _ => trivial) trivial

theorem parse (h : Unfolds name value scope scope') (text : String) :
    Parser.Ends (scope.parse text)
      (fun t => ∃ t', scope'.parse text = .ok t' ∧
        Tree.Unfolds (namesMatch scope.mode.exactConstants name) value t t')
      fun e => scope'.parse text = .error e := by
  have hname : ∀ turns token s,
      (Parser.Comparison.unfolding (namesMatch scope.mode.exactConstants name) value
        scope.depth).InStep
          (Parser.name ⟨scope.registry.names scope.mode, scope.depth, turns⟩ token)
          (Parser.name ⟨scope'.registry.names scope'.mode, scope.depth, turns⟩ token) s := by
    intro turns token s
    refine Parser.Comparison.inStep_name (Or.inl rfl) (fun _ found => .call _ found) ?_ ?_ h.inStep_nameAlone
    · intro hfunction
      rw [h.isFunction_eq]
      exact hfunction
    · intro _ _ _ hunknown hknown
      rw [h.isFunction_eq, hunknown] at hknown
      cases hknown
  have hstep := Parser.parse_inStep _ (Or.inl rfl) hname text
  unfold Scope.parse
  rw [h.depth]
  exact hstep.mono (fun _ ht => ht) fun _ he => he.resolve_right id

/-! ### Questions -/

theorem ask_of_matches (h : Unfolds name value scope scope')
    (hmatch : namesMatch scope.mode.exactConstants name written = true) (id : Option Int)
    (unresolved : Error) (history : History) :
    (scope'.ask (.lookup written id) unresolved history).1 = .ok value := by
  obtain ⟨number, hresolvers⟩ := h.resolvers
  rw [h.alike] at hmatch
  rw [ask_fst, hresolvers, Resolver.ask_concat]
  simp only [Resolver.ofVariables, hmatch, if_true, Option.some_or]

/-- The additional resolver leaves all other questions to those before it. -/
theorem ask_of_not_matches (h : Unfolds name value scope scope') (hpure : scope.IsPure)
    {q : Question} (hq : ∀ written id, q = .lookup written id →
      namesMatch scope.mode.exactConstants name written = false)
    (unresolved : Error) (history history' : History) :
    (scope.ask q unresolved history).1 = (scope'.ask q unresolved history').1 := by
  obtain ⟨number, hresolvers⟩ := h.resolvers
  rw [ask_fst, ask_fst, hresolvers, Resolver.ask_concat,
    Resolver.ask_eq_of_isPure hpure q history history']
  cases q with
  | lookup written id =>
    have hmatch := hq written id rfl
    rw [h.alike] at hmatch
    simp only [Resolver.ofVariables, hmatch, Bool.false_eq_true, if_false, Option.none_or]
  | call written arguments id => simp only [Resolver.ofVariables, Option.none_or]

/-! ### Evaluation -/

/-- Trees that correspond come out the same if the groups in them do. -/
theorem evaluateWith (h : Unfolds name value scope scope') (hpure : scope.IsPure)
    {elements elements' : Group → Asking (List Value)}
    (helements : ∀ group, (Recorded.Comparison.outcome History).Holds (elements group)
      (elements' group)) (id : Option Int) {t t' : Tree}
    (ht : Tree.Unfolds (namesMatch scope.mode.exactConstants name) value t t') :
    (Recorded.Comparison.outcome History).Holds (scope.evaluateWith elements id t)
      (scope'.evaluateWith elements' id t') := by
  induction ht with
  | literal v => exact Recorded.Comparison.pure _ v
  | folded hmatch =>
    intro history history'
    exact (h.ask_of_matches hmatch id _ history').symm
  | @reference written hmatch =>
    refine h.ask_of_not_matches hpure ?_ (.unresolvedVariable written)
    rintro _ _ ⟨⟩
    exact hmatch
  | unary op _ ih => exact Recorded.Comparison.unary _ op ih
  | binary op _ _ ihleft ihright => exact Recorded.Comparison.binary _ op ihleft ihright
  | array group => exact Recorded.Comparison.array _ (helements group)
  | call written group =>
    refine Recorded.Comparison.bind _ (helements group) ?_
    intro arguments
    refine h.ask_of_not_matches hpure ?_ (.unresolvedFunction written)
    rintro _ _ ⟨⟩

theorem evaluateTextWith (h : Unfolds name value scope scope') (hpure : scope.IsPure)
    {elements elements' : Group → Asking (List Value)}
    (helements : ∀ group, (Recorded.Comparison.outcome History).Holds (elements group)
      (elements' group)) (id : Option Int) (text : String) :
    (Recorded.Comparison.outcome History).Holds (scope.evaluateTextWith elements id text)
      (scope'.evaluateTextWith elements' id text) := by
  have hparse := h.parse text
  unfold Scope.evaluateTextWith
  cases hrun : scope.parse text with
  | error e =>
    rw [hrun] at hparse
    rw [show scope'.parse text = .error e from hparse]
    exact fun _ _ => rfl
  | ok t =>
    rw [hrun] at hparse
    obtain ⟨t', hrun', ht⟩ := hparse
    rw [hrun']
    exact h.evaluateWith hpure helements id ht

end Scope.Unfolds

namespace Scope

variable {name : String} {value : Value} {scope scope' : Scope}

/-- A text comes out the same, its errors and their places included, whether a name in it is a
constant or a variable with the value of the constant. -/
theorem evaluateText_of_unfolds (h : Unfolds name value scope scope') (hpure : scope.IsPure)
    (text : String) (id : Option Int) (history history' : History) :
    (scope.evaluateText text id history).1 = (scope'.evaluateText text id history').1 := by
  refine (Recorded.Comparison.outcome History).evaluateText
    (fun scope scope' => Unfolds name value scope scope' ∧ scope.IsPure) ?_ ?_
    ⟨h, hpure⟩ text id history history'
  · rintro scope scope' ⟨h, hpure⟩
    exact ⟨h.nested, hpure.nested⟩
  · rintro scope scope' elements elements' ⟨h, hpure⟩ helements id text
    exact h.evaluateTextWith hpure helements id text

/-- A scope with two constants and a variable. -/
def pricedScope : Scope where
  registry :=
    { variableNames := ["price"], constants := [("net", .bool true), ("unit", .text "EUR")] }
  resolvers := [.ofVariables 0 fun name _ => if name = "price" then some (.text "5") else none]

/-- The scope with one of the constants as a variable. -/
def unpricedScope : Scope where
  registry := { variableNames := ["unit", "price"], constants := [("net", .bool true)] }
  resolvers := pricedScope.resolvers ++
    [.ofVariables 1 fun name _ => if namesMatch false "unit" name then some (.text "EUR") else none]

theorem evaluateText_of_unfolds_unit :
    Unfolds "unit" (.text "EUR") pricedScope unpricedScope ∧ pricedScope.IsPure ∧
      (pricedScope.evaluateText "[price + Unit]" none []).1 =
        (unpricedScope.evaluateText "[price + Unit]" none []).1 := by
  have hunfolds : Unfolds "unit" (.text "EUR") pricedScope unpricedScope := by
    constructor
    · exact ⟨[("net", .bool true)], [], rfl, rfl, by decide⟩
    · intro declared
      simp [pricedScope, unpricedScope]
    · rfl
    · rfl
    · rfl
    · exact ⟨1, rfl⟩
    · rfl
  have hpure : pricedScope.IsPure := by
    intro r hr
    rw [List.mem_singleton.mp hr]
    exact Resolver.isPure_ofVariables _ _
  exact ⟨hunfolds, hpure, evaluateText_of_unfolds hunfolds hpure "[price + Unit]" none [] []⟩

end Scope

end Formula
