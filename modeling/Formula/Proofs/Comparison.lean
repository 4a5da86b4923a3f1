import Formula.Evaluation
import Formula.Proofs.Recorded

/-! # Comparing evaluations

A way of comparing recorded computations that is kept by sequences and by moving errors is kept by
everything evaluation is put together with. So whatever it says of the questions put in two scopes, and
of the texts parsed there, it says of the evaluations in the two scopes.
-/

namespace Formula

namespace Recorded

variable {σ α β : Type}

/-! ## Running alike -/

/-- The computations run alike, unless the first ends in an error that is not allowed. -/
def AlikeUnless (Allowed : Error → Prop) (x y : Recorded σ α) : Prop :=
  ∀ r, (∀ e, (x r).1 = .error e → Allowed e) → y r = x r

variable {Allowed : Error → Prop} {x y : Recorded σ α}

theorem AlikeUnless.bind {f g : α → Recorded σ β} (hx : AlikeUnless Allowed x y)
    (hf : ∀ a, AlikeUnless Allowed (f a) (g a)) : AlikeUnless Allowed (x >>= f) (y >>= g) := by
  intro r h
  rcases hr : x r with ⟨ended, r'⟩
  cases ended with
  | error e =>
    rw [bind_of_error hr] at h ⊢
    have hy : y r = x r := by
      refine hx r ?_
      rw [hr]
      rintro _ ⟨⟩
      exact h e rfl
    rw [hr] at hy
    rw [bind_of_error hy]
  | ok a =>
    -- a success is no error, so the first halves run alike
    rw [bind_of_ok hr] at h ⊢
    have hy : y r = x r := by
      refine hx r ?_
      rw [hr]
      exact fun _ => nofun
    rw [hr] at hy
    rw [bind_of_ok hy]
    exact hf a r' h

/-- Computations that run alike do so when they are moved, if errors are allowed wherever they are. -/
theorem AlikeUnless.shifted {distance : Nat} (hx : AlikeUnless Allowed x y)
    (hmoved : ∀ e : Error, Allowed (e.shifted distance) → Allowed e) :
    AlikeUnless Allowed (x.shifted distance) (y.shifted distance) := by
  intro r h
  have hy : y r = x r := by
    refine hx r ?_
    intro e he
    exact hmoved e (h (e.shifted distance) (by rw [shifted_apply_fst, he]; rfl))
  unfold Recorded.shifted
  rw [hy]

/-! ## Comparisons -/

/-- A way of comparing two computations with a record, as they run. -/
structure Comparison (σ : Type) where
  Holds : {α : Type} → Recorded σ α → Recorded σ α → Prop
  ofExcept {α : Type} (x : Except Error α) : Holds (ofExcept x) (ofExcept x)
  bind {α β : Type} {x y : Recorded σ α} {f g : α → Recorded σ β} (hx : Holds x y)
    (hf : ∀ a, Holds (f a) (g a)) : Holds (x >>= f) (y >>= g)
  shifted {α : Type} {x y : Recorded σ α} (distance : Nat) (hx : Holds x y) :
    Holds (x.shifted distance) (y.shifted distance)

namespace Comparison

variable (c : Comparison σ)

theorem pure (a : α) : c.Holds (Pure.pure a) (Pure.pure a) :=
  c.ofExcept (.ok a)

theorem throw (e : Error) : c.Holds (MonadExcept.throw e : Recorded σ α) (MonadExcept.throw e) :=
  c.ofExcept (.error e)

/-- Compares computations by how they end, whatever has been recorded before. -/
def outcome (σ : Type) : Comparison σ where
  Holds x y := ∀ r r', (x r).1 = (y r').1
  ofExcept _ _ _ := rfl
  bind := by
    intro α β x y f g hx hf r r'
    have hsame := hx r r'
    rcases hr : x r with ⟨ended, s⟩
    rcases hr' : y r' with ⟨ended', s'⟩
    rw [hr, hr'] at hsame
    simp only at hsame
    subst hsame
    cases ended with
    | error e => rw [bind_of_error hr, bind_of_error hr']
    | ok a =>
      rw [bind_of_ok hr, bind_of_ok hr']
      exact hf a s s'
  shifted := by
    intro α x y distance hx r r'
    rw [shifted_apply_fst, shifted_apply_fst, hx r r']

variable {evaluate evaluate' : String → Option Int → Recorded σ Value} {id : Option Int}

/-- Segments compare as they do one by one. -/
theorem evaluateSegments (h : ∀ text, c.Holds (evaluate text id) (evaluate' text id))
    (segments : List Segment) :
    c.Holds (evaluateSegments evaluate id segments) (evaluateSegments evaluate' id segments) := by
  induction segments with
  | nil => exact c.pure []
  | cons segment rest ih =>
    refine c.bind (c.shifted segment.start (h segment.text)) ?_
    intro value
    exact c.bind ih fun values => c.pure (value :: values)

theorem splitArguments (h : ∀ text, c.Holds (evaluate text id) (evaluate' text id))
    (raw : Option String) :
    c.Holds (splitArguments evaluate id raw) (splitArguments evaluate' id raw) := by
  cases raw with
  | none => exact c.pure []
  | some raw => exact c.evaluateSegments h (Segment.all raw)

end Comparison

end Recorded

/-! ## Trees -/

/-- The groups in a tree, from left to right. -/
def Tree.groups : Tree → List Group
  | .literal _ | .reference _ => []
  | .unary _ operand => operand.groups
  | .binary _ left right => left.groups ++ right.groups
  | .array group | .call _ group => [group]

namespace Recorded.Comparison

variable (c : Comparison History) {scope scope' : Scope} {id : Option Int}
  {elements elements' : Group → Asking (List Value)} {left left' right right' : Tree}

theorem unary {operand operand' : Tree} (op : PrefixOp)
    (h : c.Holds (scope.evaluateWith elements id operand)
      (scope'.evaluateWith elements' id operand')) :
    c.Holds (scope.evaluateWith elements id (.unary op operand))
      (scope'.evaluateWith elements' id (.unary op operand')) :=
  c.bind h fun value => c.ofExcept (op.apply value)

theorem binary (op : InfixOp)
    (hleft : c.Holds (scope.evaluateWith elements id left) (scope'.evaluateWith elements' id left'))
    (hright : c.Holds (scope.evaluateWith elements id right)
      (scope'.evaluateWith elements' id right')) :
    c.Holds (scope.evaluateWith elements id (.binary op left right))
      (scope'.evaluateWith elements' id (.binary op left' right')) := by
  unfold Scope.evaluateWith
  refine c.bind hleft ?_
  intro a
  cases op.decisive? with
  | none => exact c.bind hright fun b => c.ofExcept (op.apply a b)
  | some decisive =>
    cases a with
    | bool settled =>
      by_cases hsettled : settled = decisive
      · simp only [hsettled, if_true]
        exact c.pure _
      · simp only [hsettled, if_false]
        refine c.bind hright ?_
        intro b
        cases b with
        | bool b => exact c.pure _
        | number x | text s | array items => exact c.throw _
    | number x | text s | array items => exact c.throw _

theorem array {group : Group} (h : c.Holds (elements group) (elements' group)) :
    c.Holds (scope.evaluateWith elements id (.array group))
      (scope'.evaluateWith elements' id (.array group)) :=
  c.bind h fun items => c.pure (Value.array items)

theorem call {group : Group} {name : String} (h : c.Holds (elements group) (elements' group))
    (hask : ∀ q unresolved, c.Holds (scope.ask q unresolved) (scope'.ask q unresolved)) :
    c.Holds (scope.evaluateWith elements id (.call name group))
      (scope'.evaluateWith elements' id (.call name group)) :=
  c.bind h fun arguments => hask (.call name arguments id) (.unresolvedFunction name)

/-- The evaluations of a tree compare as the questions and the groups in it do. -/
theorem evaluateWith {tree : Tree}
    (hask : ∀ q unresolved, c.Holds (scope.ask q unresolved) (scope'.ask q unresolved))
    (hgroups : ∀ group ∈ tree.groups, c.Holds (elements group) (elements' group)) :
    c.Holds (scope.evaluateWith elements id tree) (scope'.evaluateWith elements' id tree) := by
  induction tree with
  | literal value => exact c.pure value
  | reference name => exact hask (.lookup name id) (.unresolvedVariable name)
  | unary op operand ih => exact c.unary op (ih hgroups)
  | binary op left right ihleft ihright =>
    refine c.binary op (ihleft ?_) (ihright ?_)
    · intro group hgroup
      exact hgroups group (List.mem_append_left _ hgroup)
    · intro group hgroup
      exact hgroups group (List.mem_append_right _ hgroup)
  | array group => exact c.array (hgroups group (List.mem_singleton_self group))
  | call name group => exact c.call (hgroups group (List.mem_singleton_self group)) hask

end Recorded.Comparison

/-! ## Texts -/

/-- The value of a text, given how groups are evaluated. -/
def Scope.evaluateTextWith (scope : Scope) (elements : Group → Asking (List Value)) (id : Option Int)
    (text : String) : Asking Value := do
  let tree ← Recorded.ofExcept (scope.parse text)
  scope.evaluateWith elements id tree

/-- The value of a text, given how many levels of groups may stand in it. -/
def Scope.evaluateTextWithin (scope : Scope) (levels : Nat) (text : String) (id : Option Int) :
    Asking Value :=
  scope.evaluateTextWith (Scope.elements levels scope id) id text

theorem Scope.evaluateText_eq (scope : Scope) :
    scope.evaluateText = scope.evaluateTextWithin groupLimit := rfl

theorem Scope.elements_succ (levels : Nat) (scope : Scope) (id : Option Int) (group : Group) :
    Scope.elements (levels + 1) scope id group =
      (splitArguments (scope.nested.evaluateTextWithin levels) id (some group.text)).shifted
        group.offset := rfl

namespace Recorded.Comparison

variable (c : Comparison History) (Related : Scope → Scope → Prop)
  (hnested : ∀ scope scope', Related scope scope' → Related scope.nested scope'.nested)
  (htext : ∀ scope scope' elements elements', Related scope scope' →
    (∀ group, c.Holds (elements group) (elements' group)) → ∀ id text,
      c.Holds (scope.evaluateTextWith elements id text) (scope'.evaluateTextWith elements' id text))
  {scope scope' : Scope}

include hnested htext

/-- The evaluations of groups compare in all scopes that are related, if those of texts do, given
groups that do. -/
theorem elements (h : Related scope scope') (levels : Nat) (id : Option Int) (group : Group) :
    c.Holds (Scope.elements levels scope id group) (Scope.elements levels scope' id group) := by
  -- on the levels: the texts in a group hold groups of one level less
  induction levels generalizing scope scope' group with
  | zero => exact c.throw _
  | succ levels ih =>
    rw [Scope.elements_succ, Scope.elements_succ]
    refine c.shifted group.offset (c.splitArguments ?_ _)
    intro text
    exact htext _ _ _ _ (hnested _ _ h) (fun inner => ih (hnested _ _ h) inner) id text

theorem evaluateText (h : Related scope scope') (text : String) (id : Option Int) :
    c.Holds (scope.evaluateText text id) (scope'.evaluateText text id) := by
  rw [Scope.evaluateText_eq, Scope.evaluateText_eq]
  exact htext _ _ _ _ h (c.elements Related hnested htext h groupLimit id) id text

end Recorded.Comparison

end Formula
