import Formula.Proofs.Predicate.Agreement
import Formula.Proofs.Termination

/-! # The fields a test reads

A compiled operator reads its left operand and then its right one, each once, unless the left one
settles it. Evaluation asks for references in the same order and leaves out the same operands. So the
fields read in a test are the names evaluation asks for, where names are all that it asks for anew:
arrays and calls are evaluated when the test is compiled, without an id and once for all records.
-/

namespace Formula

/-- The left operand is the truth value that settles the operator. -/
def InfixOp.Settles (op : InfixOp) (left : Value) : Prop :=
  ∃ decisive, op.decisive? = some decisive ∧ left = .bool decisive

/-! ## Operators -/

namespace Compiled

variable {ρ : Type} {op : InfixOp} {x y z : Compiled ρ}

theorem fields_both {α β γ : Type} (f : α → β → γ) (left : ρ → Reading α) (right : ρ → Reading β)
    (record : ρ) :
    (both f left right record).fields = (left record).fields ++ (right record).fields := by
  simp [both]

theorem fields_constant (v : Value) (record : ρ) :
    ((constant v : Compiled ρ).run record).fields = [] := by
  cases v with
  | number x | text s | bool b | array items => exact Reading.fields_map _ _

theorem fields_display (part : Compiled ρ) (record : ρ) :
    (part.display record).fields = (part.run record).fields :=
  Reading.fields_map _ _

/-- A prefix operator reads what its operand reads. -/
theorem fields_of_ofPrefix {op : PrefixOp} (h : ofPrefix op x = .ok z) (record : ρ) :
    (z.run record).fields = (x.run record).fields := by
  cases op <;> cases x <;> simp only [ofPrefix, reduceCtorEq, Except.ok.injEq] at h <;> subst h <;>
    simp [run]

theorem fields_of_equality {negated : Bool} (h : equality op negated x y = .ok z) (record : ρ) :
    (z.run record).fields = (x.run record).fields ++ (y.run record).fields := by
  cases x <;> cases y <;> simp only [equality, reduceCtorEq, Except.ok.injEq] at h <;> subst h <;>
    simp [run, fields_both]

section Rows

variable {α : Type}

theorem fields_numeric (compute : Float → Float → Float) (f g : ρ → Reading Float) (record : ρ) :
    ((numeric compute f g).run record).fields = (f record).fields ++ (g record).fields := by
  simp only [numeric, run, Reading.fields_map, fields_both]

theorem fields_compare (holds : α → α → Bool) (f g : ρ → Reading α) (record : ρ) :
    ((compare holds f g).run record).fields = (f record).fields ++ (g record).fields := by
  simp only [compare, run, Reading.fields_map, fields_both]

theorem fields_of_ofNumbers {f g : ρ → Reading Float} (h : ofNumbers f g op = some z) (record : ρ) :
    (z.run record).fields = (f record).fields ++ (g record).fields := by
  cases op with
  | add | sub | mul | div | rem | shiftRight | shiftLeft | bitAnd | bitOr =>
    cases h
    exact fields_numeric _ f g record
  | lt | le | gt | ge =>
    cases h
    exact fields_compare _ f g record
  | _ => cases h

theorem fields_of_ofTexts {f g : ρ → Reading String} (h : ofTexts f g op = some z) (record : ρ) :
    (z.run record).fields = (f record).fields ++ (g record).fields := by
  cases op with
  | lt | le | gt | ge | like =>
    cases h
    exact fields_compare _ f g record
  | _ => cases h

theorem fields_of_ofBools {f g : ρ → Reading Bool} (h : ofBools f g op = some z)
    (hop : op.decisive? = none) (record : ρ) :
    (z.run record).fields = (f record).fields ++ (g record).fields := by
  cases op with
  | bitAnd | bitOr =>
    cases h
    exact fields_compare _ f g record
  | and | or => cases hop
  | _ => cases h

/-- Every row reads both operands, from left to right, but for those that may be settled. -/
theorem fields_of_row? (h : row? op x y = some z) (hop : op.decisive? = none) (record : ρ) :
    (z.run record).fields = (x.run record).fields ++ (y.run record).fields := by
  cases x with
  | number f =>
    cases y with
    | number g =>
      simp only [run, Reading.fields_map]
      exact fields_of_ofNumbers h record
    | text g | bool g | array g => cases h
  | text f =>
    cases y with
    | text g =>
      simp only [run, Reading.fields_map]
      exact fields_of_ofTexts h record
    | number g | bool g | array g => cases h
  | bool f =>
    cases y with
    | bool g =>
      simp only [run, Reading.fields_map]
      exact fields_of_ofBools h hop record
    | number g | text g | array g => cases h
  | array f => cases y <;> cases h

end Rows

/-- An operator that is never settled reads its left operand, and then its right one. -/
theorem fields_of_eager (h : ofInfix op x y = .ok z) (hop : op.decisive? = none) (record : ρ) :
    (z.run record).fields = (x.run record).fields ++ (y.run record).fields := by
  rcases ofInfix_cases h with ⟨-, -, rfl⟩ | ⟨-, h⟩ | ⟨-, h⟩ | hrow
  · simp only [run, Reading.fields_map, fields_both, fields_display]
  · exact fields_of_equality h record
  · exact fields_of_equality h record
  · exact fields_of_row? hrow hop record

/-- A settled operator has read its left operand only, and any other both of them, from left to
right. -/
theorem fields_of_ofInfix (h : ofInfix op x y = .ok z) (record : ρ) :
    (op.Settles (x.value record) → (z.run record).fields = (x.run record).fields) ∧
      (¬ op.Settles (x.value record) →
        (z.run record).fields = (x.run record).fields ++ (y.run record).fields) := by
  cases hop : op.decisive? with
  | none =>
    refine ⟨?_, fun _ => fields_of_eager h hop record⟩
    rintro ⟨decisive, hdecisive, _⟩
    cases hop.symm.trans hdecisive
  | some decisive =>
    rcases ofInfix_of_decisive h hop with ⟨f, g, rfl, rfl, rfl⟩
    have hleft : op.Settles ((bool f).value record) ↔ (f record).result = decisive := by
      constructor
      · rintro ⟨decisive', hdecisive, hvalue⟩
        cases hop.symm.trans hdecisive
        cases hvalue
        rfl
      · rintro rfl
        exact ⟨_, hop, rfl⟩
    rw [hleft]
    constructor
    · intro hsettled
      simp [run, unlessSettled, hsettled]
    · intro hopen
      simp [run, unlessSettled, hopen]

end Compiled

/-! ## Trees -/

/-- The name the question is about, if it asks for a variable. -/
def Question.variable? : Question → Option String
  | .lookup name _ => some name
  | .call .. => none

/-- Of a left operand that is settled nothing follows but the result. -/
theorem InfixOp.behind_of_settles {op : InfixOp} {left : Value} (h : op.Settles left) :
    op.behind left = .inl (.ok left) := by
  obtain ⟨decisive, hop, rfl⟩ := h
  simp [behind, hop]

/-- A compiled operator that is not settled makes its result of the right operand. -/
theorem Compiled.behind_of_ofInfix {ρ : Type} {op : InfixOp} {x y z : Compiled ρ}
    (h : ofInfix op x y = .ok z) (record : ρ) (hopen : ¬ op.Settles (x.value record)) :
    ∃ finish, op.behind (x.value record) = .inr finish := by
  unfold InfixOp.behind
  cases hop : op.decisive? with
  | none => exact ⟨_, rfl⟩
  | some decisive =>
    rcases ofInfix_of_decisive h hop with ⟨f, g, rfl, _, _⟩
    have hother : (f record).result ≠ decisive := fun heq => hopen ⟨decisive, hop, by rw [← heq]; rfl⟩
    rw [value_bool]
    simp only [if_neg hother]
    exact ⟨_, rfl⟩

/-- A course that puts no questions about variables asks for none. -/
theorem Course.Runs.variables_eq_nil {α : Type} {c : Course α} {id : Option Int} {scope : Scope}
    {history : History} {result : Except Error α × History} {questions : List Question}
    {visits : List Visit} (h : c.Runs id scope history result questions visits)
    (hc : c.AllRequests (fun q => q.variable? = none) fun _ => True) :
    questions.filterMap Question.variable? = [] :=
  List.filterMap_eq_nil_iff.mpr (h.asked hc)

/-- A group asks for variables in its segments only, whose evaluations are their own. -/
theorem Course.allRequests_ofGroup (group : Group) :
    (ofGroup group).AllRequests (fun q => q.variable? = none) fun _ => True :=
  AllRequests.ofGroup fun _ _ => trivial

section Trees

variable {ρ : Type} {scope : Scope} {binder : Binder ρ} {record : ρ} {id : Option Int}

/-- The variables a tree asks for are the fields its compiled part reads. -/
theorem Tree.variables_of_compile (hanswers : scope.AnswersUnder id binder record)
    (hlogs : ∀ name part, binder name = some part → (part.run record).fields = [name])
    {tree : Tree} (hrepeats : scope.Repeats id tree) {part : Compiled ρ} {requests : Requests}
    (h : (tree.compile scope binder requests).1 = .ok part) {history : History}
    {result : Except Error Value × History} {questions : List Question} {visits : List Visit}
    (hruns : (tree.course id).Runs id scope history result questions visits) :
    questions.filterMap Question.variable? = (part.run record).fields := by
  induction tree generalizing part requests history result questions visits with
  | literal value =>
    have hpart : Compiled.constant value = part := by simpa [Tree.compile] using h
    subst hpart
    cases hruns
    rw [Compiled.fields_constant]
    rfl
  | reference name =>
    rw [hlogs name part (Compiling.askBinder_eq_ok h)]
    cases hruns with
    | unanswered _ => rfl
    | answered _ hrest =>
      cases hrest
      rfl
  | unary op operand ih =>
    rcases Recorded.bind_eq_ok h with ⟨x, requests', hx, hop⟩
    have hcompile : (operand.compile scope binder requests).1 = .ok x := by rw [hx]
    rw [Compiled.fields_of_ofPrefix hop record]
    rcases hruns.bind_cases with ⟨_, _, _, hoperand⟩ | ⟨_, _, _, _, _, _, hoperand, hrest, rfl, _⟩
    · exact ih hrepeats hcompile hoperand
    · cases hrest
      rw [List.append_nil]
      exact ih hrepeats hcompile hoperand
  | binary op left right ihl ihr =>
    rcases Recorded.bind_eq_ok h with ⟨x, requests', hx, h⟩
    rcases Recorded.bind_eq_ok h with ⟨y, requests'', hy, hop⟩
    have hcompilex : (left.compile scope binder requests).1 = .ok x := by rw [hx]
    have hcompiley : (right.compile scope binder requests').1 = .ok y := by rw [hy]
    have hvalue := Tree.evaluate_of_compile_of_repeats hrepeats.left hanswers hcompilex history
    obtain ⟨hsettled, hopen⟩ := Compiled.fields_of_ofInfix hop record
    rcases hruns.bind_cases with ⟨e, history', _, hleft⟩ |
      ⟨a, history', before, behind, _, _, hleft, hrest, rfl, _⟩
    · -- the left operand compiles, so it does not fail
      rw [Scope.evaluate_eq_run, ← hleft.result_eq] at hvalue
      cases hvalue
    rw [Scope.evaluate_eq_run, ← hleft.result_eq] at hvalue
    obtain rfl : a = x.value record := by simpa using hvalue
    rw [List.filterMap_append, ihl hrepeats.left hcompilex hleft]
    by_cases hsettles : op.Settles (x.value record)
    · rw [hsettled hsettles]
      rw [InfixOp.behind_of_settles hsettles] at hrest
      cases hrest
      exact List.append_nil _
    · rw [hopen hsettles]
      obtain ⟨finish, hfinish⟩ := Compiled.behind_of_ofInfix hop record hsettles
      rw [hfinish] at hrest
      rcases hrest.bind_cases with ⟨_, _, _, hright⟩ | ⟨_, _, _, _, _, _, hright, hend, rfl, _⟩
      · rw [ihr hrepeats.right hcompiley hright]
      · cases hend
        rw [List.append_nil, ihr hrepeats.right hcompiley hright]
  | array group =>
    rcases Recorded.map_eq_ok h with ⟨value, _, rfl⟩
    rw [Compiled.fields_constant]
    exact hruns.variables_eq_nil ((Course.allRequests_ofGroup group).bind fun _ => trivial)
  | call name group =>
    rcases Recorded.map_eq_ok h with ⟨value, _, rfl⟩
    rw [Compiled.fields_constant]
    refine hruns.variables_eq_nil ((Course.allRequests_ofGroup group).bind ?_)
    exact fun _ => ⟨rfl, fun _ => trivial⟩

/-! ## Tests -/

theorem Scope.exists_runs_tree (scope : Scope) (id : Option Int) (tree : Tree) (history : History) :
    ∃ result questions visits,
      (tree.course id).Runs id scope history result questions visits := by
  have hall : (tree.course id).AllRequests (fun _ => True) fun _ => True :=
    Course.AllRequests.ofTree fun _ _ _ _ => trivial
  exact hall.exists_runs (fun segment _ history => scope.nested.exists_runs id segment history) history

/-- On a record whose fields answer for the names, a test reads the fields that evaluation asks for by
name, in the same order and as often, outside of arrays and calls. These have to come to what they
came to when the test was compiled, as they do without an id if the resolvers are pure. -/
theorem Predicate.reads_eq_variables
    (hlogs : ∀ name part, binder name = some part → (part.run record).fields = [name])
    (hanswers : scope.AnswersUnder id binder record) {tree : Tree}
    (hrepeats : scope.Repeats id tree) {p : Predicate ρ} {requests : Requests}
    (h : (Predicate.ofTreeIn scope binder tree requests).1 = .ok p) (history : History) :
    (∃ result questions visits, (tree.course id).Runs id scope history result questions visits) ∧
    (∀ result questions visits, (tree.course id).Runs id scope history result questions visits →
      result = scope.evaluate id tree history ∧ result.1 = .ok (.bool (p.test record)) ∧
        questions.filterMap Question.variable? = p.reads record) ∧
    ∀ (op : InfixOp) (x y z : Compiled ρ), Compiled.ofInfix op x y = .ok z →
      (op.Settles (x.value record) → (z.run record).fields = (x.run record).fields) ∧
        (¬ op.Settles (x.value record) →
          (z.run record).fields = (x.run record).fields ++ (y.run record).fields) := by
  refine ⟨scope.exists_runs_tree id tree history, ?_,
    fun _ _ _ _ hop => Compiled.fields_of_ofInfix hop record⟩
  intro result questions visits hruns
  rcases Recorded.bind_eq_ok h with ⟨part, requests', hpart, hp⟩
  have hcompile : (tree.compile scope binder requests).1 = .ok part := by rw [hpart]
  have hresult : result = scope.evaluate id tree history := by
    rw [Scope.evaluate_eq_run]
    exact hruns.result_eq
  have hvalue := Tree.evaluate_of_compile_of_repeats hrepeats hanswers hcompile history
  have hreads := Tree.variables_of_compile hanswers hlogs hrepeats hcompile hruns
  cases part with
  | bool run =>
    have hrun : Predicate.mk run = p := by simpa [Predicate.ofCompiled] using hp
    subst hrun
    refine ⟨hresult, hresult ▸ hvalue, ?_⟩
    rw [hreads]
    exact Reading.fields_map _ _
  | number run | text run | array run => simp [Predicate.ofCompiled] at hp

end Trees

theorem personBinder_logs (person : String × Float) (name : String)
    (part : Compiled (String × Float)) (h : personBinder name = some part) :
    (part.run person).fields = [name] := by
  unfold personBinder at h
  split at h
  · cases h
    rfl
  · cases h
    rfl
  · cases h

theorem Predicate.reads_eq_variables_adult :
    ∃ p, (Predicate.ofTreeIn (personScope ("Mary", 30)) personBinder adultTree {}).1 = .ok p ∧
      p.reads ("Mary", 30) = ["name"] ∧
      ∃ result questions visits,
        (adultTree.course none).Runs none (personScope ("Mary", 30)) [] result questions visits ∧
          questions.filterMap Question.variable? = p.reads ("Mary", 30) := by
  have hlogs := personBinder_logs ("Mary", 30)
  have hanswers := personScope_answersFor ("Mary", 30)
  have hrepeats := Scope.Repeats.of_isPure (personScope_isPure ("Mary", 30)) adultTree
  rcases hp : (Predicate.ofTreeIn (personScope ("Mary", 30)) personBinder adultTree {}).1 with e | p
  · cases hp
  · obtain ⟨⟨result, questions, visits, hruns⟩, hreads, _⟩ :=
      Predicate.reads_eq_variables hlogs hanswers hrepeats hp []
    refine ⟨p, rfl, ?_, result, questions, visits, hruns, (hreads _ _ _ hruns).2.2⟩
    cases hp
    decide

/-! ## Calls that do not repeat themselves -/

/-- The tree of `Rate() > 3 and x`. -/
def rateTree : Tree :=
  .binary .and (.binary .gt (.call "Rate" ⟨"", 5⟩) (.literal (.number 3))) (.reference "x")

/-- Truth values as records with one field. -/
def flagBinder : Binder Bool
  | "x" => some (.bool fun flag => { result := flag, fields := ["x"] })
  | _ => none

theorem flagBinder_eq_some {name : String} {part : Compiled Bool}
    (h : flagBinder name = some part) :
    name = "x" ∧ part = .bool fun flag => { result := flag, fields := ["x"] } := by
  unfold flagBinder at h
  split at h
  · cases h
    exact ⟨rfl, rfl⟩
  · cases h

/-- A scope with another rate under an id than without one. -/
def idScope : Scope where
  registry := { variableNames := ["x"], functionNames := ["Rate"] }
  resolvers :=
    [.ofVariables 0 fun name _ => if name = "x" then some (.bool true) else none,
     .ofFunctions 1 fun _ _ _ => some (.number 4),
     .ofFunctions 2 fun _ _ id => id.map fun _ => .number 1]

/-- A scope in which the rate has changed when it is asked for again. -/
def turningScope : Scope where
  registry := { variableNames := ["x"], functionNames := ["Rate"] }
  resolvers :=
    [.ofVariables 0 fun name _ => if name = "x" then some (.bool true) else none,
     { number := 1
       answer := fun history q =>
        match q with
        | .lookup .. => none
        | .call .. => some (.number (if history.any fun i => i.resolver = 1 then 1 else 4)) }]

/-- Of a record that the scope answers for, the test reads a field whose name is not asked for when
the tree is evaluated after it was compiled. -/
def Scope.Overreads (scope : Scope) (id : Option Int) : Prop :=
  scope.AnswersUnder id flagBinder true ∧
    ∃ p requests, Predicate.ofTreeIn scope flagBinder rateTree {} = (.ok p, requests) ∧
      p.reads true = ["x"] ∧
      ∃ result questions visits,
        (rateTree.course id).Runs id scope requests.history result questions visits ∧
          questions.filterMap Question.variable? = []

/-- With a rate of one the left operand is false. -/
theorem runs_rateTree {scope : Scope} {id : Option Int} {history history' : History}
    (h : scope.ask (.call "Rate" [] id) (.unresolvedFunction "Rate") history =
      (.ok (.number 1), history')) :
    (rateTree.course id).Runs id scope history (.ok (.bool false), history')
      [.call "Rate" [] id] [] := by
  have hlow : InfixOp.gt.apply (.number 1) (.number 3) = .ok (.bool false) := by decide +kernel
  refine Course.Runs.answered h ?_
  change ((Course.ended (InfixOp.gt.apply (.number 1) (.number 3))).bind _).Runs id scope history' _ _ _
  rw [hlow]
  exact .ended

theorem Predicate.reads_ne_variables_rate :
    (∀ name part, flagBinder name = some part → (part.run true).fields = [name]) ∧
      idScope.Overreads (some 1) ∧ turningScope.Overreads none := by
  refine ⟨?_, ⟨?_, ?_⟩, ⟨?_, ?_⟩⟩
  · intro name part h
    obtain ⟨rfl, rfl⟩ := flagBinder_eq_some h
    rfl
  · intro name part h history
    obtain ⟨rfl, rfl⟩ := flagBinder_eq_some h
    rfl
  · exact ⟨_, _, rfl, by decide, _, _, _, runs_rateTree rfl, rfl⟩
  · intro name part h history
    obtain ⟨rfl, rfl⟩ := flagBinder_eq_some h
    rfl
  · exact ⟨_, _, rfl, by decide, _, _, _, runs_rateTree rfl, rfl⟩

end Formula
