import Formula.Proofs.Course
import Formula.Proofs.Segment
import Formula.Proofs.Tree.Places

/-! # Evaluation comes to an end

A segment of a group is shorter than the text the group stands in, since a delimiter closes the group
behind it, and no text deep inside groups has groups of its own. So a run exists for every text, by
induction on its length, and whatever is evaluated on the way is bounded in length and in depth.
-/

namespace Formula

/-! ## Bounds -/

theorem Tree.GroupsLieIn.liesIn {text : List Char} {tree : Tree} (h : tree.GroupsLieIn text) :
    ∀ group ∈ tree.groups, group.LiesIn text := by
  induction tree with
  | literal value => exact fun _ => nofun
  | reference name => exact fun _ => nofun
  | unary op operand ih => exact ih h
  | binary op left right ihleft ihright =>
    intro group hgroup
    rcases List.mem_append.mp hgroup with hgroup | hgroup
    · exact ihleft h.1 group hgroup
    · exact ihright h.2 group hgroup
  | array group | call name group =>
    intro other hother
    rw [List.mem_singleton.mp hother]
    exact h

/-- The closing delimiter is part of the text, but not of a segment. -/
theorem Group.LiesIn.length_lt {text : String} {group : Group} (h : group.LiesIn text.toList)
    {segment : Segment} (hsegment : segment ∈ Segment.all group.text) :
    segment.text.length < text.length := by
  have hgroup := h.2
  have hpiece := (Segment.standsAt_of_mem_all hsegment).length_le
  simp only [String.length_toList] at hgroup hpiece
  omega

/-- What a text has evaluated is shorter than the text, and there is room for a group around it. -/
theorem Scope.allRequests_course (scope : Scope) (id : Option Int) (text : String) :
    (scope.course id text).AllRequests (fun _ => True) fun segment =>
      segment.length < text.length ∧ scope.depth < groupLimit := by
  unfold course
  cases hparse : scope.parse text with
  | error e => trivial
  | ok tree =>
    refine Course.AllRequests.ofTree ?_
    intro group hgroup segment hsegment
    refine ⟨((groupsLieIn_of_parse hparse).liesIn group hgroup).length_lt hsegment, ?_⟩
    refine Nat.lt_of_not_le fun hdepth => ?_
    rw [groups_of_parse hdepth hparse] at hgroup
    cases hgroup

/-- The evaluation took place one level below the scope, in no more groups than there may be, and on
less than the text; and so did the evaluations it triggered, seen from there. -/
inductive Visit.Bounded : Scope → String → Visit → Prop where
  | intro {outer inner : Scope} {text segment : String} {nested : List Visit}
      (hdepth : inner.depth = outer.depth + 1) (hlimit : inner.depth ≤ groupLimit)
      (hlength : segment.length < text.length)
      (hnested : ∀ visit ∈ nested, Bounded inner segment visit) :
      Bounded outer text (.mk inner segment nested)

namespace Course

variable {α : Type} {scope : Scope} {id : Option Int} {c : Course α} {history : History}

theorem Runs.bounded {result : Except Error α × History} {questions : List Question}
    {visits : List Visit} {text : String}
    (h : c.Runs id scope history result questions visits)
    (hc : c.AllRequests (fun _ => True) fun segment =>
      segment.length < text.length ∧ scope.depth < groupLimit) :
    ∀ visit ∈ visits, visit.Bounded scope text := by
  -- on the run: a segment is the text of the evaluations it triggers
  induction h generalizing text with
  | ended | unanswered => exact fun _ => nofun
  | answered _ _ ih => exact ih (hc.2 _)
  | @evaluated _ scope segment _ _ _ _ _ _ _ _ _ _ _ ihsegment ihrest =>
    intro visit hvisit
    rcases List.mem_cons.mp hvisit with rfl | hvisit
    · exact .intro rfl hc.1.2 hc.1.1 (ihsegment (scope.nested.allRequests_course id segment))
    · exact ihrest (hc.2 _) visit hvisit

/-! ## Termination -/

/-- A course has a run if the segments have that it has evaluated. -/
theorem AllRequests.exists_runs {Asked : Question → Prop} {Evaluated : String → Prop}
    (hc : c.AllRequests Asked Evaluated)
    (hsegments : ∀ segment, Evaluated segment → ∀ history, ∃ result questions visits,
      (scope.nested.course id segment).Runs id scope.nested history result questions visits)
    (history : History) :
    ∃ result questions visits, c.Runs id scope history result questions visits := by
  induction c generalizing history with
  | ended outcome => exact ⟨_, _, _, .ended⟩
  | asks q next ih =>
    rcases hask : scope.ask q q.unresolved history with ⟨outcome, history'⟩
    cases outcome with
    | error e => exact ⟨_, _, _, .unanswered hask⟩
    | ok value =>
      obtain ⟨_, _, _, hrest⟩ := ih value (hc.2 value) history'
      exact ⟨_, _, _, .answered hask hrest⟩
  | evaluates segment next ih =>
    obtain ⟨⟨outcome, history'⟩, _, _, hsegment⟩ := hsegments segment hc.1 history
    obtain ⟨_, _, _, hrest⟩ := ih outcome (hc.2 outcome) history'
    exact ⟨_, _, _, .evaluated hsegment hrest⟩

end Course

namespace Scope

theorem exists_runs (scope : Scope) (id : Option Int) (text : String) (history : History) :
    ∃ result questions visits,
      (scope.course id text).Runs id scope history result questions visits := by
  induction hlength : text.length using Nat.strong_induction_on generalizing scope text history with
  | _ length ih =>
    subst hlength
    refine (scope.allRequests_course id text).exists_runs ?_ history
    intro segment hsegment history
    exact ih segment.length hsegment.1 scope.nested segment history rfl

/-- Every text is evaluated in a run that comes to an end. All that is evaluated on the way is in a
scope one deeper than that of the text its group stands in, shorter than that text, and no deeper than
groups may be; in particular a text as deep as that has nothing evaluated. -/
theorem evaluateText_terminates (scope : Scope) (id : Option Int) (text : String)
    (history : History) :
    (∃ result questions visits,
      (scope.course id text).Runs id scope history result questions visits) ∧
    ∀ result questions visits,
      (scope.course id text).Runs id scope history result questions visits →
        result = scope.evaluateText text id history ∧
          (∀ visit ∈ visits, visit.Bounded scope text) ∧
          (groupLimit ≤ scope.depth → visits = []) := by
  refine ⟨scope.exists_runs id text history, ?_⟩
  intro result questions visits hruns
  have hbounded := hruns.bounded (scope.allRequests_course id text)
  refine ⟨?_, hbounded, ?_⟩
  · rw [evaluateText_eq_run]
    exact hruns.result_eq
  · intro hdepth
    refine List.eq_nil_iff_forall_not_mem.mpr ?_
    intro visit hvisit
    cases hbounded visit hvisit with
    | intro hinner hlimit => omega

end Scope

end Formula
