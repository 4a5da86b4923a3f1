import Formula.Proofs.Comparison
import Formula.Proofs.Tree.Lockstep
import Formula.Proofs.Tree.Reparsing

/-! # Limits only reject

How many groups stand around a text is looked at where a limit is checked and nowhere else. So what
comes of a text deep inside groups is a report that it is too complex, or what comes of it further up,
with the same questions asked.
-/

namespace Formula

/-- The error is located, and its message says that the expression is too complex. -/
def Error.IsTooComplex (e : Error) : Prop :=
  ∃ fault offset length details, e = .positioned fault offset length ∧
    fault.message = "Expression too complex" ++ details

namespace Error.IsLimit

variable {e : Error}

theorem isTooComplex (h : e.IsLimit) : e.IsTooComplex := by
  obtain ⟨fault, offset, length, rfl, hlimit⟩ := h
  obtain ⟨details, hmessage⟩ := Fault.message_of_isLimit hlimit
  exact ⟨fault, offset, length, details, rfl, hmessage⟩

/-- A limit is one wherever the text stands. -/
theorem shifted (h : e.IsLimit) (distance : Nat) : (e.shifted distance).IsLimit := by
  obtain ⟨fault, offset, length, rfl, hlimit⟩ := h
  exact ⟨fault, offset + distance, length, rfl, hlimit⟩

end Error.IsLimit

/-! ## Parsing -/

-- What is to be shown of a comparison by equality in which no state is lost.

theorem Tree.array_refl (group : Group) : Tree.array group = .array group :=
  rfl

theorem Tree.unary_congr (op : PrefixOp) {t t' : Tree} (h : t = t') :
    Tree.unary op t = .unary op t' :=
  congrArg (Tree.unary op) h

theorem Tree.binary_congr (op : InfixOp) {left left' right right' : Tree} (hleft : left = left')
    (hright : right = right') : Tree.binary op left right = .binary op left' right' :=
  congrArg₂ (Tree.binary op) hleft hright

theorem Parser.stuck_of_false {s : State} (h : False) :
    ∃ opening, s.ahead = some opening ∧ opening.isOpening "(" = true :=
  h.elim

/-- Compares a parser, stopped by a limit or not, with one that has more room. -/
def Parser.Comparison.limited (depth : Nat) : Comparison depth where
  Same t t' := t = t'
  Lost _ := False
  Excused := Error.IsLimit
  literal _ := rfl
  array _ := Tree.array_refl
  unary op _ _ := Tree.unary_congr op
  binary op _ _ _ _ := Tree.binary_congr op
  stuck := Parser.stuck_of_false
  excused h _ _ _ := h.elim

theorem Parser.Comparison.excusesLimits_limited (depth : Nat) : (limited depth).ExcusesLimits :=
  fun fault offset length hlimit => ⟨fault, offset, length, rfl, hlimit⟩

/-- No limit is looked at for a name that stands alone. -/
theorem Parser.Comparison.inStep_name_limited (names : Names) {depth depth' : Nat}
    (h : depth' ≤ depth) (turns : Nat) (token : Token) (s : State) :
    (limited depth).InStep (name ⟨names, depth, turns⟩ token) (name ⟨names, depth', turns⟩ token)
      s := by
  refine inStep_name (Or.inr ⟨h, excusesLimits_limited depth⟩) (fun _ _ => rfl) (fun h => h) ?_ ?_
  · intro _ _ _ hunknown hknown
    cases hunknown.symm.trans hknown
  · exact inStep_self (meets_nameAlone (fun _ _ => rfl) (fun _ => rfl) (fun _ => trivial) trivial)

/-- The second scope is the first, with fewer groups around it or as many. -/
structure Scope.Above (scope scope' : Scope) : Prop where
  same : scope' = { scope with depth := scope'.depth }
  depth_le : scope'.depth ≤ scope.depth

namespace Scope.Above

variable {scope scope' : Scope}

theorem ofDepth {depth : Nat} (h : depth ≤ scope.depth) : scope.Above { scope with depth } where
  same := rfl
  depth_le := h

theorem nested (h : scope.Above scope') : scope.nested.Above scope'.nested where
  same := by
    rw [h.same]
    rfl
  depth_le := Nat.succ_le_succ h.depth_le

/-- What is parsed deeper is parsed further up, and an error is the same there or that of a limit. -/
theorem parse (h : scope.Above scope') (text : String) :
    Parser.Ends (scope.parse text) (fun t => scope'.parse text = .ok t)
      fun e => scope'.parse text = .error e ∨ e.IsLimit := by
  have hroom : (Parser.Comparison.limited scope.depth).Room scope'.depth scope.depth :=
    Or.inr ⟨h.depth_le, Parser.Comparison.excusesLimits_limited scope.depth⟩
  have hstep := Parser.parse_inStep _ hroom
    (Parser.Comparison.inStep_name_limited (scope.registry.names scope.mode) h.depth_le) text
  rw [h.same]
  refine hstep.mono ?_ fun _ he => he
  rintro t ⟨t', hrun, rfl⟩
  exact hrun

end Scope.Above

/-! ## Evaluation -/

/-- Compares a computation with one that runs alike, unless a limit stops the first. -/
def Recorded.Comparison.unlessLimited (σ : Type) : Comparison σ where
  Holds x y := AlikeUnless (fun e => ¬ e.IsLimit) x y
  ofExcept _ _ _ := rfl
  bind hx hf := AlikeUnless.bind hx hf
  shifted distance hx := AlikeUnless.shifted hx fun _ hmoved hlimit => hmoved (hlimit.shifted distance)

namespace Scope

variable {scope scope' : Scope}

theorem Above.evaluateTextWith (h : scope.Above scope')
    {elements elements' : Group → Asking (List Value)}
    (helements : ∀ group, (Recorded.Comparison.unlessLimited History).Holds (elements group)
      (elements' group)) (id : Option Int) (text : String) :
    (Recorded.Comparison.unlessLimited History).Holds (scope.evaluateTextWith elements id text)
      (scope'.evaluateTextWith elements' id text) := by
  have hparse := h.parse text
  unfold Scope.evaluateTextWith
  cases hrun : scope.parse text with
  | error e =>
    rw [hrun] at hparse
    -- a limit that stops the parser stops the evaluation, and is excused
    intro history hallowed
    rcases hparse with hrun' | hlimit
    · rw [hrun']
      rfl
    · exact absurd hlimit (hallowed e rfl)
  | ok t =>
    rw [hrun] at hparse
    rw [show scope'.parse text = .ok t from hparse]
    refine Recorded.Comparison.evaluateWith _ ?_ fun group _ => helements group
    intro q unresolved history _
    rw [h.same]
    rfl

/-- Inside more groups a text is too complex, or it comes to the same: the same tree, and the same
value or error by way of the same questions. -/
theorem isTooComplex_or_eq_of_depth_le {depth : Nat} (h : depth ≤ scope.depth) :
    (∀ text, (∃ e, scope.parse text = .error e ∧ e.IsTooComplex) ∨
      scope.parse text = { scope with depth }.parse text) ∧
    ∀ text id history,
      (∃ e, (scope.evaluateText text id history).1 = .error e ∧ e.IsTooComplex) ∨
        scope.evaluateText text id history = { scope with depth }.evaluateText text id history := by
  have habove : scope.Above { scope with depth } := .ofDepth h
  constructor
  · intro text
    have hparse := habove.parse text
    cases hrun : scope.parse text with
    | ok t =>
      rw [hrun] at hparse
      exact Or.inr hparse.symm
    | error e =>
      rw [hrun] at hparse
      rcases hparse with hrun' | hlimit
      · exact Or.inr hrun'.symm
      · exact Or.inl ⟨e, rfl, hlimit.isTooComplex⟩
  · intro text id history
    have hholds := (Recorded.Comparison.unlessLimited History).evaluateText Above
      (fun _ _ h => h.nested) (fun _ _ _ _ h helements id text => h.evaluateTextWith helements id text)
      habove text id
    by_cases hlimit : ∃ e, (scope.evaluateText text id history).1 = .error e ∧ e.IsLimit
    · obtain ⟨e, he, hlimit⟩ := hlimit
      exact Or.inl ⟨e, he, hlimit.isTooComplex⟩
    · refine Or.inr (hholds history ?_).symm
      intro e he hlimited
      exact hlimit ⟨e, he, hlimited⟩

/-- A scope with a variable, inside all but one of the groups there may be. -/
def innerScope : Scope where
  registry := { variableNames := ["x"] }
  resolvers := [.ofVariables 0 fun _ _ => some (.bool true)]
  depth := 63

theorem isTooComplex_or_eq_of_depth_le_inner :
    0 ≤ innerScope.depth ∧
      innerScope.evaluateText "[x]" none [] =
        { innerScope with depth := 0 }.evaluateText "[x]" none [] ∧
      ∃ e, (innerScope.evaluateText "[x, [x]]" none []).1 = .error e ∧ e.IsTooComplex := by
  have hdepth : 0 ≤ innerScope.depth := Nat.zero_le 63
  have hvalue : (innerScope.evaluateText "[x]" none []).1 = .ok (.array [.bool true]) := by
    decide +kernel
  have hdiffers : (innerScope.evaluateText "[x, [x]]" none []).1 ≠
      ({ innerScope with depth := 0 }.evaluateText "[x, [x]]" none []).1 := by decide +kernel
  obtain ⟨_, hevaluate⟩ := isTooComplex_or_eq_of_depth_le hdepth
  refine ⟨hdepth, (hevaluate "[x]" none []).resolve_left ?_, ?_⟩
  · rintro ⟨e, he, _⟩
    cases hvalue.symm.trans he
  · exact (hevaluate "[x, [x]]" none []).resolve_right fun heq => hdiffers (congrArg Prod.fst heq)

end Scope

end Formula
