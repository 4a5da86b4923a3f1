import Formula.Proofs.Comparison
import Formula.Proofs.Tree.Pairing
import Mathlib.Data.List.Forall2

/-! # Evaluating texts that are alike

Trees that are alike are evaluated alike, if questions with names that are alike are answered so, and
groups that are alike evaluated so. Groups are, if the segments they are cut into are alike one by one,
and then texts are by induction on the levels of groups that may stand in them.
-/

namespace Formula.Recorded.Comparison

variable (c : Comparison History)

/-- The comparison is kept where the errors of the two move by these distances. -/
def Moves (distance distance' : Nat) : Prop :=
  ∀ {α : Type} {x y : Recorded History α}, c.Holds x y →
    c.Holds (x.shifted distance) (y.shifted distance')

/-- Segments compare as they do one by one. -/
theorem evaluateSegments_of_forall₂ {evaluate evaluate' : String → Option Int → Asking Value}
    {id : Option Int} {segments segments' : List Segment}
    (h : List.Forall₂ (fun segment segment' =>
      c.Holds ((evaluate segment.text id).shifted segment.start)
        ((evaluate' segment'.text id).shifted segment'.start)) segments segments') :
    c.Holds (Formula.evaluateSegments evaluate id segments)
      (Formula.evaluateSegments evaluate' id segments') := by
  induction h with
  | nil => exact c.pure []
  | cons hsegment _ ih =>
    refine c.bind hsegment ?_
    intro value
    exact c.bind ih fun values => c.pure (value :: values)

section Trees

variable {SameName : String → String → Prop} {SameGroup : Group → Group → Prop}
  {scope : Scope} {id : Option Int} {elements elements' : Group → Asking (List Value)}

variable
  (hlookup : ∀ name name', SameName name name' →
    c.Holds (scope.ask (.lookup name id) (.unresolvedVariable name))
      (scope.ask (.lookup name' id) (.unresolvedVariable name')))
  (hcall : ∀ name name' arguments, SameName name name' →
    c.Holds (scope.ask (.call name arguments id) (.unresolvedFunction name))
      (scope.ask (.call name' arguments id) (.unresolvedFunction name')))
  (hgroup : ∀ group group', SameGroup group group' → c.Holds (elements group) (elements' group'))

include hlookup hcall hgroup

/-- The evaluations of trees that are alike compare as the questions and the groups in them do. -/
theorem evaluateWith_of_alike {tree tree' : Tree} (h : tree.Alike SameName SameGroup tree') :
    c.Holds (scope.evaluateWith elements id tree) (scope.evaluateWith elements' id tree') := by
  induction h with
  | literal value => exact c.pure value
  | reference h => exact hlookup _ _ h
  | unary op _ ih => exact c.unary op ih
  | binary op _ _ ihleft ihright => exact c.binary op ihleft ihright
  | array h => exact c.bind (hgroup _ _ h) fun items => c.pure (Value.array items)
  | call hname h => exact c.bind (hgroup _ _ h) fun arguments => hcall _ _ arguments hname

/-- So do those of texts, if the trees of the texts are alike where the first is parsed. -/
theorem evaluateTextWith_of_alike {text text' : String}
    (h : Parser.Ends (scope.parse text)
      (fun tree => ∃ tree', scope.parse text' = .ok tree' ∧ tree.Alike SameName SameGroup tree')
      fun e => c.Holds (MonadExcept.throw e) (scope.evaluateTextWith elements' id text')) :
    c.Holds (scope.evaluateTextWith elements id text)
      (scope.evaluateTextWith elements' id text') := by
  unfold Scope.evaluateTextWith at h ⊢
  cases hparse : scope.parse text with
  | error e =>
    rw [hparse] at h
    exact h
  | ok tree =>
    rw [hparse] at h
    obtain ⟨tree', hparse', halike⟩ := h
    rw [hparse']
    exact c.evaluateWith_of_alike hlookup hcall hgroup halike

end Trees

section Texts

variable (SameText : String → String → Prop) (SameGroup : Group → Group → Prop)
  (Usual : Scope → Prop) {scope : Scope} {id : Option Int}

variable
  (hnested : ∀ scope, Usual scope → Usual scope.nested)
  (hlimit : ∀ group group', SameGroup group group' → ∀ fault : Fault,
    c.Holds (MonadExcept.throw (Error.positioned fault (group.offset - 1) 1) : Asking (List Value))
      (MonadExcept.throw (Error.positioned fault (group'.offset - 1) 1)))
  (hsegments : ∀ group group', SameGroup group group' →
    c.Moves group.offset group'.offset ∧
      List.Forall₂ (fun segment segment' => SameText segment.text segment'.text ∧
        c.Moves segment.start segment'.start) (Segment.all group.text) (Segment.all group'.text))
  (htext : ∀ scope elements elements', Usual scope →
    (∀ group group', SameGroup group group' → c.Holds (elements group) (elements' group')) →
      ∀ text text', SameText text text' →
        c.Holds (scope.evaluateTextWith elements id text) (scope.evaluateTextWith elements' id text'))

include hnested hlimit hsegments htext

/-- The evaluations of groups that are alike compare, if those of texts do, given groups that do. -/
theorem elements_of_alike (hscope : Usual scope) (levels : Nat) {group group' : Group}
    (h : SameGroup group group') :
    c.Holds (Scope.elements levels scope id group) (Scope.elements levels scope id group') := by
  -- on the levels: the texts in a group hold groups of one level less
  induction levels generalizing scope group group' with
  | zero => exact hlimit group group' h _
  | succ levels ih =>
    rw [Scope.elements_succ, Scope.elements_succ]
    obtain ⟨hmoves, hall⟩ := hsegments group group' h
    refine hmoves (c.evaluateSegments_of_forall₂ (hall.imp ?_))
    rintro segment segment' ⟨hsame, hstart⟩
    refine hstart (htext _ _ _ (hnested _ hscope) ?_ _ _ hsame)
    intro inner inner' hinner
    exact ih (hnested _ hscope) hinner

theorem evaluateText_of_alike (hscope : Usual scope) {text text' : String}
    (h : SameText text text') :
    c.Holds (scope.evaluateText text id) (scope.evaluateText text' id) := by
  rw [Scope.evaluateText_eq]
  refine htext _ _ _ hscope ?_ _ _ h
  intro group group' hgroup
  exact c.elements_of_alike SameText SameGroup Usual hnested hlimit hsegments htext hscope _ hgroup

end Texts

end Formula.Recorded.Comparison
