import Formula.Proofs.Operator.Errors
import Formula.Proofs.Segment
import Formula.Proofs.Tree.Places

/-! # Errors are exact in the outermost text

An error inside a group is moved twice: to where its segment stands in the group, and to where the
group stands in the text around it. By induction on the levels of groups it is exact in the outermost
text, whether a text is parsed, evaluated or compiled.
-/

namespace Formula

/-- An error without a place is exact in any text. -/
theorem exactIn_of_span?_eq_none {text : List Char} {e : Error} (h : e.span? = none) :
    e.ExactIn text := by
  cases e with
  | positioned fault offset length => cases h
  | _ => trivial

namespace Scope

variable {scope : Scope} {text : List Char} {id : Option Int}

/-! ## Evaluation -/

theorem span?_of_ask {q : Question} {unresolved : Error} {history : History} {e : Error}
    (hplace : unresolved.span? = none) (h : (scope.ask q unresolved history).1 = .error e) :
    e.span? = none := by
  unfold ask at h
  rcases hasked : Resolver.ask q scope.resolvers history with ⟨answer, history'⟩
  rw [hasked] at h
  cases answer with
  | some value => cases h
  | none =>
    cases h
    exact hplace

/-- An infix operator fails with an error of an operand or with one of its own, which has no place. -/
theorem error_of_evaluateWith_binary {elements : Group → Asking (List Value)} {op : InfixOp}
    {left right : Tree} {history : History} {e : Error}
    (h : (scope.evaluateWith elements id (.binary op left right) history).1 = .error e) :
    (scope.evaluateWith elements id left history).1 = .error e ∨
      (∃ history', (scope.evaluateWith elements id right history').1 = .error e) ∨
        e.span? = none := by
  rcases Recorded.bind_eq_error h with hleft | ⟨a, history', _, hbehind⟩
  · exact Or.inl hleft
  right
  cases hop : op.decisive? with
  | none =>
    simp only [hop] at hbehind
    rcases Recorded.bind_eq_error hbehind with hright | ⟨b, history'', _, happly⟩
    · exact Or.inl ⟨history', hright⟩
    · exact Or.inr (InfixOp.span?_of_apply happly)
  | some decisive =>
    -- `and` and `or` look at their right operand only if the left one settles nothing
    simp only [hop] at hbehind
    cases a with
    | bool settled =>
      by_cases hsettled : settled = decisive
      · simp [hsettled] at hbehind
      · simp only [if_neg hsettled] at hbehind
        rcases Recorded.bind_eq_error hbehind with hright | ⟨b, history'', _, hresult⟩
        · exact Or.inl ⟨history', hright⟩
        · cases b with
          | bool b => cases hresult
          | _ =>
            cases hresult
            exact Or.inr rfl
    | _ =>
      cases hbehind
      exact Or.inr rfl

/-- Errors of a tree come from its groups, from operators and from resolvers. -/
theorem exactIn_of_evaluateWith {elements : Group → Asking (List Value)} {tree : Tree}
    (htree : tree.GroupsLieIn text)
    (helements : ∀ (group : Group) (history : History) (e : Error), group.LiesIn text →
      (elements group history).1 = .error e → e.ExactIn text)
    {history : History} {e : Error}
    (h : (scope.evaluateWith elements id tree history).1 = .error e) : e.ExactIn text := by
  induction tree generalizing history e with
  | literal value => cases h
  | reference name => exact exactIn_of_span?_eq_none (span?_of_ask rfl h)
  | unary op operand ih =>
    rcases Recorded.bind_eq_error h with hoperand | ⟨value, history', _, happly⟩
    · exact ih htree hoperand
    · exact exactIn_of_span?_eq_none (PrefixOp.span?_of_apply happly)
  | binary op left right ihleft ihright =>
    rcases error_of_evaluateWith_binary h with hleft | ⟨history', hright⟩ | hplace
    · exact ihleft htree.1 hleft
    · exact ihright htree.2 hright
    · exact exactIn_of_span?_eq_none hplace
  | array group =>
    rcases Recorded.bind_eq_error h with helement | ⟨items, history', _, hpure⟩
    · exact helements group history e htree helement
    · cases hpure
  | call name group =>
    rcases Recorded.bind_eq_error h with helement | ⟨items, history', _, hask⟩
    · exact helements group history e htree helement
    · exact exactIn_of_span?_eq_none (span?_of_ask rfl hask)

/-- Errors of the elements of a group are exact in the text the group stands in. -/
theorem exactIn_of_elements {levels : Nat} {group : Group} (hgroup : group.LiesIn text)
    {history : History} {e : Error}
    (h : (Scope.elements levels scope id group history).1 = .error e) : e.ExactIn text := by
  -- on the levels, for all texts: a group inside stands in the segment, which is a text of its own
  induction levels generalizing scope id text group history e with
  | zero =>
    -- the levels are spent, which is an error at the group itself
    cases h
    have hlt := hgroup.2
    exact exactIn_of_le (fun _ => trivial) (by omega)
  | succ levels ih =>
    rcases Recorded.shifted_eq_error h with ⟨e', he', rfl⟩
    refine Error.ExactIn.shifted (exactIn_of_splitArguments ?_ he') hgroup.1
    intro piece history' e'' hpiece
    rcases Recorded.bind_eq_error hpiece with hparse | ⟨tree, history'', htree, hvalue⟩
    · exact exactIn_of_parse hparse
    · have hparsed : scope.nested.parse piece = .ok tree := congrArg Prod.fst htree
      refine exactIn_of_evaluateWith (groupsLieIn_of_parse hparsed) ?_ hvalue
      intro inner history₃ e₃ hinner helement
      exact ih hinner helement

theorem exactIn_of_evaluate {tree : Tree} (htree : tree.GroupsLieIn text) {history : History}
    {e : Error} (h : (scope.evaluate id tree history).1 = .error e) : e.ExactIn text := by
  refine exactIn_of_evaluateWith htree ?_ h
  intro group history' e' hgroup helement
  exact exactIn_of_elements hgroup helement

theorem exactIn_of_evaluateText {text : String} {history : History} {e : Error}
    (h : (scope.evaluateText text id history).1 = .error e) : e.ExactIn text.toList := by
  rcases Recorded.bind_eq_error h with hparse | ⟨tree, history', htree, hvalue⟩
  · exact exactIn_of_parse hparse
  · have hparsed : scope.parse text = .ok tree := congrArg Prod.fst htree
    exact exactIn_of_evaluate (groupsLieIn_of_parse hparsed) hvalue

end Scope

/-! ## Compilation -/

theorem exactIn_of_ofAsking {α : Type} {text : List Char} {x : Asking α} {requests : Requests}
    {e : Error} (hx : ∀ history, (x history).1 = .error e → e.ExactIn text)
    (h : (Compiling.ofAsking x requests).1 = .error e) : e.ExactIn text :=
  hx requests.history h

/-- Errors of a compiled tree come from its groups, from operators and from the binder. -/
theorem exactIn_of_compile {ρ : Type} {scope : Scope} {binder : Binder ρ} {tree : Tree}
    {text : List Char} (htree : tree.GroupsLieIn text) {requests : Requests} {e : Error}
    (h : (tree.compile scope binder requests).1 = .error e) : e.ExactIn text := by
  induction tree generalizing requests e with
  | literal value => cases h
  | reference name =>
    -- the binder answers, or the name is not resolved
    simp only [Tree.compile, Compiling.askBinder] at h
    split at h
    · cases h
    · cases h
      trivial
  | unary op operand ih =>
    rcases Recorded.bind_eq_error h with hoperand | ⟨x, requests', _, hop⟩
    · exact ih htree hoperand
    · exact exactIn_of_span?_eq_none (Compiled.span?_of_ofPrefix hop)
  | binary op left right ihleft ihright =>
    rcases Recorded.bind_eq_error h with hleft | ⟨x, requests', _, hbehind⟩
    · exact ihleft htree.1 hleft
    · rcases Recorded.bind_eq_error hbehind with hright | ⟨y, requests'', _, hop⟩
      · exact ihright htree.2 hright
      · exact exactIn_of_span?_eq_none (Compiled.span?_of_ofInfix hop)
  | array group =>
    rw [Tree.compile, map_eq_pure_bind] at h
    rcases Recorded.bind_eq_error h with hasked | ⟨value, requests', _, hpure⟩
    · have hgroup : (Tree.array group).GroupsLieIn text := htree
      exact exactIn_of_ofAsking (fun history => Scope.exactIn_of_evaluate hgroup) hasked
    · cases hpure
  | call name group =>
    rw [Tree.compile, map_eq_pure_bind] at h
    rcases Recorded.bind_eq_error h with hasked | ⟨value, requests', _, hpure⟩
    · have hgroup : (Tree.call name group).GroupsLieIn text := htree
      exact exactIn_of_ofAsking (fun history => Scope.exactIn_of_evaluate hgroup) hasked
    · cases hpure

theorem exactIn_of_ofExpression {ρ : Type} {binder : Binder ρ} {expression : Expression}
    {requests : Requests} {e : Error}
    (h : (Predicate.ofExpression binder (some expression) requests).1 = .error e) :
    e.ExactIn expression.text.toList := by
  rcases Recorded.bind_eq_error h with hparse | ⟨tree, requests', htree, hbehind⟩
  · exact Scope.exactIn_of_parse hparse
  · have hparsed : expression.scope.parse expression.text = .ok tree := congrArg Prod.fst htree
    have hgroups := Scope.groupsLieIn_of_parse hparsed
    rcases Recorded.bind_eq_error hbehind with hcompile | ⟨x, requests'', _, htest⟩
    · exact exactIn_of_compile hgroups hcompile
    · exact exactIn_of_span?_eq_none (Predicate.span?_of_ofCompiled htest)

/-! ## Places and names -/

/-- The place lies in the text, and the piece there is the one the message names, if it does. -/
structure Fault.Locates (fault : Fault) (text : String) (offset length : Nat) : Prop where
  within : offset + length ≤ text.length
  named : ∀ x, fault.Names x → (text.toList.drop offset).take length = x.toList

theorem locates_of_exactIn {text : String} {fault : Fault} {offset length : Nat}
    (h : (Error.positioned fault offset length).ExactIn text.toList) :
    fault.Locates text offset length := by
  rcases h with ⟨piece, hstands, rfl, habout⟩
  constructor
  · rw [← String.length_toList]
    exact hstands.length_le
  · intro x hnames
    rw [hstands.take_drop]
    exact habout.eq_of_names hnames

/-- Every error with a place is in the outermost text, whether the text is parsed, evaluated or
compiled, and where the message names a piece of it, the place is that of the piece. -/
theorem Error.locates_outermost {fault : Fault} {offset length : Nat} :
    (∀ (scope : Scope) (text : String),
      scope.parse text = .error (.positioned fault offset length) →
        fault.Locates text offset length) ∧
    (∀ (scope : Scope) (text : String) (id : Option Int) (history : History),
      (scope.evaluateText text id history).1 = .error (.positioned fault offset length) →
        fault.Locates text offset length) ∧
    ∀ (ρ : Type) (binder : Binder ρ) (expression : Expression) (requests : Requests),
      (Predicate.ofExpression binder (some expression) requests).1 =
          .error (.positioned fault offset length) →
        fault.Locates expression.text offset length := by
  constructor
  · intro scope text h
    exact locates_of_exactIn (Scope.exactIn_of_parse h)
  constructor
  · intro scope text id history h
    exact locates_of_exactIn (Scope.exactIn_of_evaluateText h)
  · intro ρ binder expression requests h
    exact locates_of_exactIn (exactIn_of_ofExpression h)

/-- Whether a run failed with this error can be decided. -/
theorem eq_error_of_decide {α : Type} {x : Except Error α} {e : Error}
    (h : (match x with | .ok _ => false | .error e' => decide (e' = e)) = true) :
    x = .error e := by
  cases x with
  | ok a => cases h
  | error e' => rw [of_decide_eq_true h]

/-- An unknown name behind an operator, inside two arrays, and inside a call that is compiled. -/
theorem Error.locates_outermost_unknown :
    (Fault.unknownIdentifier "nope").Locates "2 * nope" 4 4 ∧
      (Fault.unknownIdentifier "nope").Locates "[1, [2, nope]]" 8 4 ∧
      (Fault.unknownIdentifier "nope").Locates "Max(nope) = 2" 4 4 := by
  have hparse : Scope.parse {} "2 * nope" =
      .error (.positioned (.unknownIdentifier "nope") 4 4) :=
    eq_error_of_decide (by decide +kernel)
  have hevaluate : (Scope.evaluateText {} "[1, [2, nope]]" none []).1 =
      .error (.positioned (.unknownIdentifier "nope") 8 4) :=
    eq_error_of_decide (by decide +kernel)
  have hcompile : (Predicate.ofExpression (fun _ => none : Binder Unit)
      (some ((Expression.ofText "Max(nope) = 2" {}).addFunction "Max")) {}).1 =
        .error (.positioned (.unknownIdentifier "nope") 4 4) :=
    eq_error_of_decide (by decide +kernel)
  constructor
  · exact Error.locates_outermost.1 _ _ hparse
  constructor
  · exact Error.locates_outermost.2.1 _ _ _ _ hevaluate
  · exact Error.locates_outermost.2.2 _ _ _ _ hcompile

end Formula
