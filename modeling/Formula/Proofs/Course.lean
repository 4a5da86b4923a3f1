import Formula.Proofs.Dialogue
import Formula.Proofs.Levels

/-! # The course of an evaluation

Evaluating a text means asking resolvers and having segments of its groups evaluated. Taken as a tree
of such requests, evaluation needs no number of levels: a segment is a request like a question, and
its own course is looked at when it is carried out. A run of a course is a derivation, so that there
is one only if the evaluation comes to an end, and it lists every evaluation that was triggered.
-/

namespace Formula

/-! ## Courses -/

/-- What an evaluation does until it is over: it puts a question and goes on with the answer, or has a
segment of a group evaluated and goes on with what comes of that. -/
inductive Course (α : Type) where
  | ended (outcome : Except Error α)
  | asks (q : Question) (next : Value → Course α)
  | evaluates (segment : String) (next : Except Error Value → Course α)

namespace Course

variable {α β : Type}

/-- One course behind the other. -/
def bind (c : Course α) (f : α → Course β) : Course β :=
  match c with
  | .ended (.ok a) => f a
  | .ended (.error e) => .ended (.error e)
  | .asks q next => .asks q fun value => (next value).bind f
  | .evaluates segment next => .evaluates segment fun outcome => (next outcome).bind f

/-- The course, its errors moved `distance` characters to the right. -/
def shifted (distance : Nat) : Course α → Course α
  | .ended outcome => .ended (outcome.mapError (·.shifted distance))
  | .asks q next => .asks q fun value => (next value).shifted distance
  | .evaluates segment next => .evaluates segment fun outcome => (next outcome).shifted distance

/-- The segments in order, up to the first that fails. -/
def ofSegments : List Segment → Course (List Value)
  | [] => .ended (.ok [])
  | segment :: rest =>
    (Course.evaluates segment.text fun outcome =>
      .ended (outcome.mapError (·.shifted segment.start))).bind fun value =>
        (ofSegments rest).bind fun values => .ended (.ok (value :: values))

/-- The elements of a group. -/
def ofGroup (group : Group) : Course (List Value) :=
  (ofSegments (Segment.all group.text)).shifted group.offset

end Course

/-- What follows from the left operand: the operator is done, or it makes its result of the right
operand. -/
def InfixOp.behind (op : InfixOp) (left : Value) :
    Except Error Value ⊕ (Value → Except Error Value) :=
  match op.decisive?, left with
  | none, left => .inr (op.apply left)
  | some decisive, .bool settled =>
    if settled = decisive then .inl (.ok (.bool settled))
    else
      .inr fun
        | .bool b => .ok (.bool b)
        | right => .error (op.mismatch .bool right.kind)
  | some _, left => .inl (.error (op.mismatch left.kind .bool))

/-- The course of the evaluation of a tree. -/
def Tree.course (id : Option Int) : Tree → Course Value
  | .literal value => .ended (.ok value)
  | .reference name => .asks (.lookup name id) fun value => .ended (.ok value)
  | .unary op operand => (operand.course id).bind fun value => .ended (op.apply value)
  | .binary op left right =>
    (left.course id).bind fun a =>
      match op.behind a with
      | .inl outcome => .ended outcome
      | .inr finish => (right.course id).bind fun b => .ended (finish b)
  | .array group => (Course.ofGroup group).bind fun items => .ended (.ok (.array items))
  | .call name group =>
    (Course.ofGroup group).bind fun arguments =>
      .asks (.call name arguments id) fun value => .ended (.ok value)

/-- The course of the evaluation of a text. -/
def Scope.course (scope : Scope) (id : Option Int) (text : String) : Course Value :=
  match scope.parse text with
  | .error e => .ended (.error e)
  | .ok tree => tree.course id

/-! ## What a course requests -/

namespace Course

variable {α β : Type} {Asked : Question → Prop} {Evaluated : String → Prop}

/-- Whatever it is told, the course puts only questions and has only segments evaluated that have the
properties. -/
def AllRequests (Asked : Question → Prop) (Evaluated : String → Prop) : Course α → Prop
  | .ended _ => True
  | .asks q next => Asked q ∧ ∀ value, (next value).AllRequests Asked Evaluated
  | .evaluates segment next =>
    Evaluated segment ∧ ∀ outcome, (next outcome).AllRequests Asked Evaluated

namespace AllRequests

theorem bind {c : Course α} {f : α → Course β} (hc : c.AllRequests Asked Evaluated)
    (hf : ∀ a, (f a).AllRequests Asked Evaluated) : (c.bind f).AllRequests Asked Evaluated := by
  induction c with
  | ended outcome =>
    cases outcome with
    | error e => trivial
    | ok a => exact hf a
  | asks q next ih => exact ⟨hc.1, fun value => ih value (hc.2 value)⟩
  | evaluates segment next ih => exact ⟨hc.1, fun outcome => ih outcome (hc.2 outcome)⟩

theorem shifted {c : Course α} (hc : c.AllRequests Asked Evaluated) (distance : Nat) :
    (c.shifted distance).AllRequests Asked Evaluated := by
  induction c with
  | ended outcome => trivial
  | asks q next ih => exact ⟨hc.1, fun value => ih value (hc.2 value)⟩
  | evaluates segment next ih => exact ⟨hc.1, fun outcome => ih outcome (hc.2 outcome)⟩

theorem ofSegments {segments : List Segment} (h : ∀ segment ∈ segments, Evaluated segment.text) :
    (ofSegments segments).AllRequests Asked Evaluated := by
  induction segments with
  | nil => trivial
  | cons segment rest ih =>
    have hrest := ih fun other hother => h other (List.mem_cons_of_mem segment hother)
    have hfirst : (Course.evaluates segment.text fun outcome =>
        .ended (outcome.mapError (·.shifted segment.start))).AllRequests Asked Evaluated :=
      ⟨h segment List.mem_cons_self, fun _ => trivial⟩
    exact hfirst.bind fun _ => hrest.bind fun _ => trivial

/-- A group puts no question by itself. -/
theorem ofGroup {group : Group} (h : ∀ segment ∈ Segment.all group.text, Evaluated segment.text) :
    (ofGroup group).AllRequests Asked Evaluated :=
  (ofSegments h).shifted group.offset

/-- A tree has the segments of its groups evaluated, and no others. -/
theorem ofTree {tree : Tree} {id : Option Int}
    (h : ∀ group ∈ tree.groups, ∀ segment ∈ Segment.all group.text, Evaluated segment.text) :
    (tree.course id).AllRequests (fun _ => True) Evaluated := by
  induction tree with
  | literal value => trivial
  | reference name => exact ⟨trivial, fun _ => trivial⟩
  | unary op operand ih => exact (ih h).bind fun _ => trivial
  | binary op left right ihleft ihright =>
    have hleft := ihleft fun group hgroup => h group (List.mem_append_left _ hgroup)
    have hright := ihright fun group hgroup => h group (List.mem_append_right _ hgroup)
    refine hleft.bind ?_
    intro a
    cases op.behind a with
    | inl outcome => trivial
    | inr finish => exact hright.bind fun _ => trivial
  | array group => exact (ofGroup (h group (List.mem_singleton_self group))).bind fun _ => trivial
  | call name group =>
    refine (ofGroup (h group (List.mem_singleton_self group))).bind ?_
    exact fun _ => ⟨trivial, fun _ => trivial⟩

end AllRequests

end Course

/-! ## Courses as computations -/

/-- What is done with a failed or a successful first half depends on how it ended only. -/
theorem Recorded.bind_apply_congr {σ α β : Type} {x y : Recorded σ α} {f : α → Recorded σ β}
    {r r' : σ} (h : x r = y r') : (x >>= f) r = (y >>= f) r' := by
  rcases hy : y r' with ⟨outcome, s⟩
  rw [hy] at h
  cases outcome with
  | error e => rw [bind_of_error h, bind_of_error hy]
  | ok a => rw [bind_of_ok h, bind_of_ok hy]

namespace Course

variable {α β : Type} {scope : Scope} {id : Option Int}
  {evaluate : String → Option Int → Asking Value}

/-- The course as a computation, given how segments are evaluated. -/
def run (scope : Scope) (evaluate : String → Option Int → Asking Value) (id : Option Int) :
    Course α → Asking α
  | .ended outcome => Recorded.ofExcept outcome
  | .asks q next => do
    let value ← scope.ask q q.unresolved
    (next value).run scope evaluate id
  | .evaluates segment next => fun history =>
    let (outcome, history) := evaluate segment id history
    (next outcome).run scope evaluate id history

/-- The course goes on with what comes of the segment. -/
theorem run_evaluates {segment : String} {next : Except Error Value → Course α}
    {history history' : History} {outcome : Except Error Value}
    (h : evaluate segment id history = (outcome, history')) :
    (Course.evaluates segment next).run scope evaluate id history =
      (next outcome).run scope evaluate id history' := by
  simp only [run, h]

theorem run_bind (c : Course α) (f : α → Course β) :
    (c.bind f).run scope evaluate id =
      c.run scope evaluate id >>= fun a => (f a).run scope evaluate id := by
  induction c with
  | ended outcome =>
    cases outcome with
    | error e => rfl
    | ok a => rfl
  | asks q next ih =>
    simp only [bind, run, ih]
    exact (bind_assoc _ _ _).symm
  | evaluates segment next ih =>
    -- a segment that fails does not end the computation by itself: the course is told, and goes on
    funext history
    rcases hsegment : evaluate segment id history with ⟨outcome, history'⟩
    rw [Recorded.bind_apply_congr (run_evaluates hsegment), ← ih, bind, run_evaluates hsegment]

theorem run_shifted (c : Course α) (distance : Nat) :
    (c.shifted distance).run scope evaluate id = (c.run scope evaluate id).shifted distance := by
  induction c with
  | ended outcome => rfl
  | asks q next ih =>
    have hask := Scope.shifted_ask scope q (q.shifted_unresolved distance)
    simp only [shifted, run, ih, Recorded.shifted_bind, hask]
  | evaluates segment next ih =>
    funext history
    simp only [shifted, run, ih]
    rfl

theorem run_ofSegments (segments : List Segment) :
    (ofSegments segments).run scope evaluate id = evaluateSegments evaluate id segments := by
  induction segments with
  | nil => rfl
  | cons segment rest ih =>
    rw [ofSegments, run_bind, evaluateSegments]
    refine congrArg₂ _ rfl ?_
    funext value
    rw [run_bind, ih]
    rfl

theorem run_ofGroup (group : Group) :
    (ofGroup group).run scope evaluate id =
      (splitArguments evaluate id (some group.text)).shifted group.offset := by
  rw [ofGroup, run_shifted, run_ofSegments]
  rfl

end Course

namespace Scope

variable {scope : Scope} {id : Option Int}

/-- An infix operator looks at its left operand first, and then at the right one if it has to. -/
theorem evaluateWith_binary {elements : Group → Asking (List Value)} (op : InfixOp)
    (left right : Tree) :
    scope.evaluateWith elements id (.binary op left right) =
      scope.evaluateWith elements id left >>= fun a =>
        match op.behind a with
        | .inl outcome => Recorded.ofExcept outcome
        | .inr finish =>
          scope.evaluateWith elements id right >>= fun b => Recorded.ofExcept (finish b) := by
  rw [evaluateWith]
  refine congrArg _ ?_
  funext a
  -- evaluation looks at the operator first and at the left value only if that may settle it
  unfold InfixOp.behind
  cases op.decisive? with
  | none => rfl
  | some decisive =>
    cases a with
    | bool settled =>
      by_cases hsettled : settled = decisive
      · simp only [hsettled, if_true]
        rfl
      · simp only [hsettled, if_false]
        refine congrArg _ ?_
        funext b
        cases b with
        | bool b => rfl
        | number x | text s | array items => rfl
    | number x | text s | array items => rfl

/-- The value of a tree is what its course comes to. -/
theorem run_course_tree {evaluate : String → Option Int → Asking Value} (tree : Tree) :
    (tree.course id).run scope evaluate id =
      scope.evaluateWith
        (fun group => (splitArguments evaluate id (some group.text)).shifted group.offset) id
        tree := by
  induction tree with
  | literal value => rfl
  | reference name => exact bind_pure _
  | unary op operand ih =>
    rw [Tree.course, Course.run_bind, ih]
    rfl
  | binary op left right ihleft ihright =>
    rw [Tree.course, Course.run_bind, evaluateWith_binary, ihleft]
    refine congrArg _ ?_
    funext a
    cases op.behind a with
    | inl outcome => rfl
    | inr finish =>
      simp only [Course.run_bind, ihright]
      rfl
  | array group =>
    rw [Tree.course, Course.run_bind, Course.run_ofGroup]
    rfl
  | call name group =>
    rw [Tree.course, Course.run_bind, Course.run_ofGroup]
    refine congrArg _ ?_
    funext arguments
    exact bind_pure _

/-- Evaluating a tree is going through its course, the segments being evaluated as texts of the nested
scope. -/
theorem evaluate_eq_run (tree : Tree) :
    scope.evaluate id tree = (tree.course id).run scope scope.nested.evaluateText id := by
  rw [run_course_tree]
  exact evaluateWith_congr fun group _ => evaluateGroup_eq group

theorem evaluateText_eq_run (text : String) :
    scope.evaluateText text id =
      (scope.course id text).run scope scope.nested.evaluateText id := by
  unfold evaluateText course
  cases scope.parse text with
  | error e => rfl
  | ok tree => exact evaluate_eq_run tree

end Scope

/-! ## Runs -/

/-- The evaluation of a segment in a scope, with the evaluations it triggered in its turn. -/
inductive Visit where
  | mk (scope : Scope) (segment : String) (nested : List Visit)

/-- In a scope and from a record on, the course comes to an outcome and a record, by way of its own
questions and of the evaluations of segments, all in order. A segment goes through its own course in
the nested scope. -/
inductive Course.Runs (id : Option Int) : {α : Type} → Scope → Course α → History →
    Except Error α × History → List Question → List Visit → Prop where
  | ended {α : Type} {scope : Scope} {outcome : Except Error α} {history : History} :
      Runs id scope (.ended outcome) history (outcome, history) [] []
  | answered {α : Type} {scope : Scope} {q : Question} {next : Value → Course α}
      {history history' : History} {value : Value} {result : Except Error α × History}
      {questions : List Question} {visits : List Visit}
      (hask : scope.ask q q.unresolved history = (.ok value, history'))
      (hrest : Runs id scope (next value) history' result questions visits) :
      Runs id scope (.asks q next) history result (q :: questions) visits
  | unanswered {α : Type} {scope : Scope} {q : Question} {next : Value → Course α}
      {history history' : History} {e : Error}
      (hask : scope.ask q q.unresolved history = (.error e, history')) :
      Runs id scope (.asks q next) history (.error e, history') [q] []
  | evaluated {α : Type} {scope : Scope} {segment : String} {next : Except Error Value → Course α}
      {history history' : History} {outcome : Except Error Value}
      {result : Except Error α × History} {inner questions : List Question}
      {nested visits : List Visit}
      (hsegment : Runs id scope.nested (scope.nested.course id segment) history
        (outcome, history') inner nested)
      (hrest : Runs id scope (next outcome) history' result questions visits) :
      Runs id scope (.evaluates segment next) history result questions
        (.mk scope.nested segment nested :: visits)

namespace Course.Runs

variable {α β : Type} {scope : Scope} {id : Option Int} {c : Course α} {history : History}
  {questions : List Question} {visits : List Visit}

/-- A run comes to what the evaluation comes to. -/
theorem result_eq {result : Except Error α × History}
    (h : c.Runs id scope history result questions visits) :
    result = c.run scope scope.nested.evaluateText id history := by
  induction h with
  | ended => rfl
  | answered hask _ ih =>
    rw [run, Recorded.bind_of_ok hask]
    exact ih
  | unanswered hask => rw [run, Recorded.bind_of_error hask]
  | evaluated _ _ ihsegment ihrest =>
    rw [← Scope.evaluateText_eq_run] at ihsegment
    rw [run_evaluates ihsegment.symm]
    exact ihrest

/-- The questions of a run are among those the course may put. -/
theorem asked {result : Except Error α × History} {Asked : Question → Prop}
    {Evaluated : String → Prop} (h : c.Runs id scope history result questions visits)
    (hc : c.AllRequests Asked Evaluated) : ∀ q ∈ questions, Asked q := by
  induction h with
  | ended => exact fun _ => nofun
  | answered _ _ ih =>
    intro q hq
    rcases List.mem_cons.mp hq with rfl | hq
    · exact hc.1
    · exact ih (hc.2 _) q hq
  | unanswered _ =>
    intro q hq
    rw [List.mem_singleton.mp hq]
    exact hc.1
  | evaluated _ _ _ ihrest => exact ihrest (hc.2 _)

/-- A run of a sequence is a run of its first half that fails, or one that succeeds and is followed by
a run of the second half. -/
theorem bind_cases {f : α → Course β} {result : Except Error β × History}
    (h : (c.bind f).Runs id scope history result questions visits) :
    (∃ e history', result = (.error e, history') ∧
      c.Runs id scope history (.error e, history') questions visits) ∨
    ∃ a history' before behind visited visits', c.Runs id scope history (.ok a, history') before visited ∧
      (f a).Runs id scope history' result behind visits' ∧ questions = before ++ behind ∧
        visits = visited ++ visits' := by
  -- on the course: its first request is that of the sequence, and what is left is a sequence again
  induction c generalizing history questions visits with
  | ended outcome =>
    cases outcome with
    | error e =>
      cases h
      exact Or.inl ⟨e, history, rfl, .ended⟩
    | ok a => exact Or.inr ⟨a, history, [], questions, [], visits, .ended, h, rfl, rfl⟩
  | asks q next ih =>
    cases h with
    | unanswered hask => exact Or.inl ⟨_, _, rfl, .unanswered hask⟩
    | answered hask hrest =>
      rcases ih _ hrest with ⟨e, history', hresult, hfirst⟩ |
        ⟨a, history', before, behind, visited, visits', hfirst, hsecond, rfl, rfl⟩
      · exact Or.inl ⟨e, history', hresult, .answered hask hfirst⟩
      · exact Or.inr ⟨a, history', _, behind, visited, visits', .answered hask hfirst, hsecond, rfl,
          rfl⟩
  | evaluates segment next ih =>
    cases h with
    | evaluated hsegment hrest =>
      rcases ih _ hrest with ⟨e, history', hresult, hfirst⟩ |
        ⟨a, history', before, behind, visited, visits', hfirst, hsecond, rfl, rfl⟩
      · exact Or.inl ⟨e, history', hresult, .evaluated hsegment hfirst⟩
      · exact Or.inr ⟨a, history', before, behind, _, visits', .evaluated hsegment hfirst, hsecond,
          rfl, rfl⟩

end Course.Runs

end Formula
