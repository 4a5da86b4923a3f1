import Formula.Proofs.Purity
import Mathlib.Tactic.Choose

/-! # Evaluation as a dialogue

An evaluation puts one question after another and goes on with what it is told. Which questions these
are depends on the text, on the declared names and on the answers; it does not depend on who answers,
nor on the correlation id. Every question goes to all resolvers under the id of the evaluation, and
what it is told is their last answer.
-/

namespace Formula

/-! ## Answers -/

/-- The same question under another correlation id. -/
def Question.under (id : Option Int) : Question → Question
  | .lookup name _ => .lookup name id
  | .call name arguments _ => .call name arguments id

/-- What an evaluation ends in if nobody answers the question. -/
def Question.unresolved : Question → Error
  | .lookup name _ => .unresolvedVariable name
  | .call name _ _ => .unresolvedFunction name

theorem Question.under_under (id id' : Option Int) (q : Question) :
    (q.under id).under id' = q.under id' := by
  cases q with
  | lookup name id => rfl
  | call name arguments id => rfl

/-- That nobody knows a name is no matter of places. -/
theorem Question.shifted_unresolved (q : Question) (distance : Nat) :
    q.unresolved.shifted distance = q.unresolved := by
  cases q with
  | lookup name id => rfl
  | call name arguments id => rfl

namespace Resolver

variable {q : Question} {resolvers : List Resolver} {history : History} {value : Value}

/-- A question put to every resolver once, in their order. -/
def inquiries (resolvers : List Resolver) (q : Question) : List Inquiry :=
  resolvers.map fun r => ⟨r.number, q⟩

/-- What the resolvers answer, each of them when its turn has come. -/
def answers (q : Question) : List Resolver → History → List (Option Value)
  | [], _ => []
  | r :: rs, h => r.answer h q :: answers q rs (h ++ [⟨r.number, q⟩])

/-- The value is an answer, behind which there is no other. -/
def LastAnswer (value : Value) (answers : List (Option Value)) : Prop :=
  ∃ before after, answers = before ++ some value :: after ∧ ∀ answer ∈ after, answer = none

theorem ask_eq_none (h : (ask q resolvers history).1 = none) :
    ∀ answer ∈ answers q resolvers history, answer = none := by
  induction resolvers generalizing history with
  | nil =>
    intro answer hanswer
    cases hanswer
  | cons r rs ih =>
    have hboth : (ask q rs (history ++ [⟨r.number, q⟩])).1 = none ∧ r.answer history q = none :=
      Option.or_eq_none_iff.mp h
    intro answer hanswer
    rcases List.mem_cons.mp hanswer with rfl | hlater
    · exact hboth.2
    · exact ih hboth.1 answer hlater

theorem ask_eq_some (h : (ask q resolvers history).1 = some value) :
    LastAnswer value (answers q resolvers history) := by
  induction resolvers generalizing history with
  | nil => cases h
  | cons r rs ih =>
    rcases Option.or_eq_some_iff.mp h with hlater | ⟨hnone, hhere⟩
    · rcases ih hlater with ⟨before, after, hanswers, hafter⟩
      refine ⟨r.answer history q :: before, after, ?_, hafter⟩
      rw [answers, hanswers, List.cons_append]
    · refine ⟨[], answers q rs (history ++ [⟨r.number, q⟩]), ?_, ask_eq_none hnone⟩
      rw [answers, hhere, List.nil_append]

end Resolver

/-! ## Dialogues -/

/-- An evaluation as those see it who are asked: it is over, or puts a question and goes on with what
it is told. The ids of the questions do not count. -/
inductive Dialogue (α : Type) where
  | ended (outcome : Except Error α)
  | asks (q : Question) (next : Value → Dialogue α)

namespace Dialogue

variable {α β : Type}

/-- With these resolvers, and from this record on, the dialogue puts the questions, all of them under
the id, and comes to the outcome. It is told the last answer of the resolvers to a question, and
breaks off at a question without an answer. -/
inductive Runs (resolvers : List Resolver) (id : Option Int) :
    Dialogue α → History → List Question → Except Error α → Prop where
  | ended {outcome : Except Error α} {history : History} :
      Runs resolvers id (.ended outcome) history [] outcome
  | answered {q : Question} {next : Value → Dialogue α} {history : History} {value : Value}
      {questions : List Question} {outcome : Except Error α}
      (hvalue : Resolver.LastAnswer value (Resolver.answers (q.under id) resolvers history))
      (hrest : Runs resolvers id (next value)
        (history ++ Resolver.inquiries resolvers (q.under id)) questions outcome) :
      Runs resolvers id (.asks q next) history (q.under id :: questions) outcome
  | unanswered {q : Question} {next : Value → Dialogue α} {history : History}
      (hnone : ∀ answer ∈ Resolver.answers (q.under id) resolvers history, answer = none) :
      Runs resolvers id (.asks q next) history [q.under id] (.error q.unresolved)

/-- The dialogue as a computation. -/
def run (scope : Scope) (id : Option Int) : Dialogue α → Asking α
  | .ended outcome => Recorded.ofExcept outcome
  | .asks q next => do
    let value ← scope.ask (q.under id) q.unresolved
    (next value).run scope id

/-- One dialogue behind the other. -/
def bind (d : Dialogue α) (f : α → Dialogue β) : Dialogue β :=
  match d with
  | .ended (.ok a) => f a
  | .ended (.error e) => .ended (.error e)
  | .asks q next => .asks q fun value => (next value).bind f

/-- The dialogue, its errors moved `distance` characters to the right. -/
def shifted (distance : Nat) : Dialogue α → Dialogue α
  | .ended outcome => .ended (outcome.mapError (·.shifted distance))
  | .asks q next => .asks q fun value => (next value).shifted distance

/-- Every question of a run is under its id. -/
theorem Runs.under_eq {resolvers : List Resolver} {id : Option Int} {d : Dialogue α}
    {history : History} {questions : List Question} {outcome : Except Error α}
    (h : d.Runs resolvers id history questions outcome) : ∀ q ∈ questions, q.under id = q := by
  induction h with
  | ended =>
    intro q hq
    cases hq
  | answered _ _ ih =>
    intro q hq
    rcases List.mem_cons.mp hq with rfl | hq
    · exact Question.under_under id id _
    · exact ih q hq
  | unanswered _ =>
    intro q hq
    rw [List.mem_singleton.mp hq]
    exact Question.under_under id id _

variable {scope : Scope} {id : Option Int}

/-- A run asks all resolvers for each of its questions, and nothing else. -/
theorem runs_run (d : Dialogue α) (history : History) :
    ∃ questions outcome, d.Runs scope.resolvers id history questions outcome ∧
      d.run scope id history =
        (outcome, history ++ questions.flatMap (Resolver.inquiries scope.resolvers)) := by
  induction d generalizing history with
  | ended outcome => exact ⟨[], outcome, .ended, by simp [run]⟩
  | asks q next ih =>
    have hrecord := @Scope.ask_snd scope (q.under id) q.unresolved history
    cases hanswer : (Resolver.ask (q.under id) scope.resolvers history).1 with
    | none =>
      have hask : scope.ask (q.under id) q.unresolved history =
          (.error q.unresolved, history ++ Resolver.inquiries scope.resolvers (q.under id)) :=
        Prod.ext (by rw [Scope.ask_fst, hanswer]) hrecord
      refine ⟨_, _, .unanswered (Resolver.ask_eq_none hanswer), ?_⟩
      rw [run, Recorded.bind_of_error hask]
      simp
    | some value =>
      have hask : scope.ask (q.under id) q.unresolved history =
          (.ok value, history ++ Resolver.inquiries scope.resolvers (q.under id)) :=
        Prod.ext (by rw [Scope.ask_fst, hanswer]) hrecord
      obtain ⟨questions, outcome, hruns, hrest⟩ :=
        ih value (history ++ Resolver.inquiries scope.resolvers (q.under id))
      refine ⟨_, outcome, .answered (Resolver.ask_eq_some hanswer) hruns, ?_⟩
      rw [run, Recorded.bind_of_ok hask, hrest, List.flatMap_cons, List.append_assoc]

theorem run_bind (d : Dialogue α) (f : α → Dialogue β) :
    (d.bind f).run scope id = d.run scope id >>= fun a => (f a).run scope id := by
  induction d with
  | ended outcome =>
    cases outcome with
    | error e => rfl
    | ok a => rfl
  | asks q next ih =>
    simp only [bind, run, ih]
    exact (bind_assoc _ _ _).symm

theorem run_shifted (d : Dialogue α) (distance : Nat) :
    (d.shifted distance).run scope id = (d.run scope id).shifted distance := by
  induction d with
  | ended outcome => rfl
  | asks q next ih =>
    have hask := Scope.shifted_ask scope (q.under id) (q.shifted_unresolved distance)
    simp only [shifted, run, ih, Recorded.shifted_bind, hask]

end Dialogue

/-! ## Computations that are dialogues -/

/-- What is computed with any resolvers under any id is one and the same dialogue. -/
def IsDialogue {α : Type} (x : List Resolver → Option Int → Asking α) : Prop :=
  ∃ d : Dialogue α, ∀ resolvers id, x resolvers id = d.run { resolvers } id

namespace IsDialogue

variable {α β : Type} {x : List Resolver → Option Int → Asking α}

theorem ofExcept (outcome : Except Error α) : IsDialogue fun _ _ => Recorded.ofExcept outcome :=
  ⟨.ended outcome, fun _ _ => rfl⟩

theorem pure (a : α) : IsDialogue fun _ _ => Pure.pure a :=
  ofExcept (.ok a)

theorem throw (e : Error) : IsDialogue fun _ _ => (MonadExcept.throw e : Asking α) :=
  ofExcept (.error e)

theorem bind {f : α → List Resolver → Option Int → Asking β} (hx : IsDialogue x)
    (hf : ∀ a, IsDialogue (f a)) :
    IsDialogue fun resolvers id => x resolvers id >>= fun a => f a resolvers id := by
  obtain ⟨d, hd⟩ := hx
  choose next hnext using hf
  refine ⟨d.bind next, ?_⟩
  intro resolvers id
  simp only [Dialogue.run_bind, hd, hnext]

theorem shifted (hx : IsDialogue x) (distance : Nat) :
    IsDialogue fun resolvers id => (x resolvers id).shifted distance := by
  obtain ⟨d, hd⟩ := hx
  refine ⟨d.shifted distance, ?_⟩
  intro resolvers id
  simp only [Dialogue.run_shifted, hd]

/-- A question that goes to all resolvers under the id is a dialogue. -/
theorem ask (scope : Scope) (q : Question) :
    IsDialogue fun resolvers id =>
      Scope.ask { scope with resolvers } (q.under id) q.unresolved := by
  refine ⟨.asks q fun value => .ended (.ok value), ?_⟩
  intro resolvers id
  exact (bind_pure _).symm

/-! ## Evaluation -/

variable {evaluate : List Resolver → String → Option Int → Asking Value}

theorem evaluateSegments (h : ∀ text, IsDialogue fun resolvers id => evaluate resolvers text id)
    (segments : List Segment) :
    IsDialogue fun resolvers id => evaluateSegments (evaluate resolvers) id segments := by
  induction segments with
  | nil => exact pure []
  | cons segment rest ih =>
    refine bind ((h segment.text).shifted segment.start) ?_
    intro value
    exact bind ih fun values => pure (value :: values)

theorem splitArguments (h : ∀ text, IsDialogue fun resolvers id => evaluate resolvers text id)
    (raw : Option String) :
    IsDialogue fun resolvers id => splitArguments (evaluate resolvers) id raw := by
  cases raw with
  | none => exact pure []
  | some raw => exact evaluateSegments h (Segment.all raw)

section Trees

variable {scope : Scope} {elements : List Resolver → Option Int → Group → Asking (List Value)}

theorem evaluateWith_binary {op : InfixOp} {left right : Tree}
    (hleft : IsDialogue fun resolvers id =>
      Scope.evaluateWith { scope with resolvers } (elements resolvers id) id left)
    (hright : IsDialogue fun resolvers id =>
      Scope.evaluateWith { scope with resolvers } (elements resolvers id) id right) :
    IsDialogue fun resolvers id =>
      Scope.evaluateWith { scope with resolvers } (elements resolvers id) id
        (.binary op left right) := by
  simp only [Scope.evaluateWith]
  refine bind hleft ?_
  intro a
  cases op.decisive? with
  | none => exact bind hright fun b => ofExcept (op.apply a b)
  | some decisive =>
    cases a with
    | bool settled =>
      by_cases hsettled : settled = decisive
      · simp only [hsettled, if_true]
        exact pure _
      · simp only [hsettled, if_false]
        refine bind hright ?_
        intro b
        cases b with
        | bool b => exact pure _
        | number x | text s | array items => exact throw _
    | number x | text s | array items => exact throw _

theorem evaluateWith (h : ∀ group, IsDialogue fun resolvers id => elements resolvers id group)
    (tree : Tree) :
    IsDialogue fun resolvers id =>
      Scope.evaluateWith { scope with resolvers } (elements resolvers id) id tree := by
  induction tree with
  | literal value => exact pure value
  | reference name => exact ask scope (.lookup name none)
  | unary op operand ih => exact bind ih fun value => ofExcept (op.apply value)
  | binary op left right ihleft ihright => exact evaluateWith_binary ihleft ihright
  | array group => exact bind (h group) fun items => pure (Value.array items)
  | call name group =>
    exact bind (h group) fun arguments => ask scope (.call name arguments none)

end Trees

theorem elements (levels : Nat) (scope : Scope) (group : Group) :
    IsDialogue fun resolvers id => Scope.elements levels { scope with resolvers } id group := by
  -- on the levels: the texts in a group hold groups of one level less
  induction levels generalizing scope group with
  | zero => exact throw _
  | succ levels ih =>
    refine shifted (splitArguments ?_ (some group.text)) group.offset
    intro text
    refine bind (ofExcept (scope.nested.parse text)) ?_
    intro tree
    have hinner := fun inner => ih scope.nested inner
    exact @evaluateWith scope.nested _ hinner tree

theorem evaluateText (scope : Scope) (text : String) :
    IsDialogue fun resolvers id => Scope.evaluateText { scope with resolvers } text id := by
  refine bind (ofExcept (scope.parse text)) ?_
  intro tree
  exact evaluateWith (fun group => elements groupLimit scope group) tree

end IsDialogue

/-! ## Resolvers that ignore the id -/

/-- The same inquiry under another correlation id. -/
def Inquiry.under (id : Option Int) (inquiry : Inquiry) : Inquiry :=
  ⟨inquiry.resolver, inquiry.question.under id⟩

/-- The answers are the same under any id, whatever the ids of earlier questions were. -/
def Resolver.IgnoresId (r : Resolver) : Prop :=
  ∀ (id : Option Int) (h : History) (q : Question),
    r.answer (h.map (·.under id)) (q.under id) = r.answer h q

theorem Resolver.ignoresId_ofVariables (number : Nat) (value? : String → Option Value) :
    (ofVariables number fun name _ => value? name).IgnoresId := by
  intro id h q
  cases q with
  | lookup name id => rfl
  | call name arguments id => rfl

theorem Resolver.ignoresId_ofFunctions (number : Nat)
    (result? : String → List Value → Option Value) :
    (ofFunctions number fun name arguments _ => result? name arguments).IgnoresId := by
  intro id h q
  cases q with
  | lookup name id => rfl
  | call name arguments id => rfl

/-- Such resolvers answer alike to a question under two ids, if they have been asked alike. -/
theorem Resolver.ask_eq_of_ignoresId {resolvers : List Resolver}
    (hids : ∀ r ∈ resolvers, r.IgnoresId) {q q' : Question} (hq : q.under none = q'.under none)
    {h h' : History} (hh : h.map (·.under none) = h'.map (·.under none)) :
    (Resolver.ask q resolvers h).1 = (Resolver.ask q' resolvers h').1 := by
  induction resolvers generalizing h h' with
  | nil => rfl
  | cons r rs ih =>
    have hanswer : r.answer h q = r.answer h' q' := by
      have hr := hids r List.mem_cons_self
      rw [← hr none h q, ← hr none h' q', hh, hq]
    have hlater : (Resolver.ask q rs (h ++ [⟨r.number, q⟩])).1 =
        (Resolver.ask q' rs (h' ++ [⟨r.number, q'⟩])).1 := by
      refine ih (fun r' hr' => hids r' (List.mem_cons_of_mem r hr')) ?_
      rw [List.map_append, List.map_append, hh]
      simp only [List.map_cons, List.map_nil, Inquiry.under, hq]
    simp only [Resolver.ask, hanswer, hlater]

/-- A dialogue with such resolvers comes to the same under two ids. -/
theorem Dialogue.run_eq_of_ignoresId {α : Type} {scope : Scope}
    (hids : ∀ r ∈ scope.resolvers, r.IgnoresId) (d : Dialogue α) {id id' : Option Int}
    {h h' : History} (hh : h.map (·.under none) = h'.map (·.under none)) :
    (d.run scope id h).1 = (d.run scope id' h').1 := by
  induction d generalizing h h' with
  | ended outcome => rfl
  | asks q next ih =>
    have hq : (q.under id).under none = (q.under id').under none := by
      rw [Question.under_under, Question.under_under]
    have hsame : (scope.ask (q.under id) q.unresolved h).1 =
        (scope.ask (q.under id') q.unresolved h').1 := by
      rw [Scope.ask_fst, Scope.ask_fst, Resolver.ask_eq_of_ignoresId hids hq hh]
    have hrecord : (scope.ask (q.under id) q.unresolved h).2.map (·.under none) =
        (scope.ask (q.under id') q.unresolved h').2.map (·.under none) := by
      rw [Scope.ask_snd, Scope.ask_snd, List.map_append, List.map_append, hh]
      simp only [List.map_map, Function.comp_def, Inquiry.under, hq]
    rcases hask : scope.ask (q.under id) q.unresolved h with ⟨outcome, record⟩
    rcases hask' : scope.ask (q.under id') q.unresolved h' with ⟨outcome', record'⟩
    rw [hask, hask'] at hsame hrecord
    obtain rfl : outcome = outcome' := hsame
    cases outcome with
    | error e => rw [run, run, Recorded.bind_of_error hask, Recorded.bind_of_error hask']
    | ok value =>
      rw [run, run, Recorded.bind_of_ok hask, Recorded.bind_of_ok hask']
      exact ih value hrecord

/-! ## Texts -/

/-- The evaluation of a text is a dialogue: every question goes to all resolvers in their order, under
the id of the evaluation, and is settled by the last answer or, without one, the last of all. With
resolvers that ignore the id, the outcome is the same under every id. -/
theorem Scope.exists_dialogue (scope : Scope) (text : String) :
    ∃ dialogue : Dialogue Value, ∀ resolvers : List Resolver,
      (∀ (id : Option Int) (history : History), ∃ questions outcome,
        dialogue.Runs resolvers id history questions outcome ∧
          (∀ q ∈ questions, q.under id = q) ∧
          evaluateText { scope with resolvers } text id history =
            (outcome, history ++ questions.flatMap (Resolver.inquiries resolvers))) ∧
      ((∀ r ∈ resolvers, r.IgnoresId) → ∀ (id id' : Option Int) (history : History),
        (evaluateText { scope with resolvers } text id history).1 =
          (evaluateText { scope with resolvers } text id' history).1) := by
  obtain ⟨dialogue, hdialogue⟩ := IsDialogue.evaluateText scope text
  refine ⟨dialogue, ?_⟩
  intro resolvers
  have hsame : ∀ id, evaluateText { scope with resolvers } text id =
      dialogue.run { resolvers } id := hdialogue resolvers
  constructor
  · intro id history
    obtain ⟨questions, outcome, hruns, hrun⟩ := @Dialogue.runs_run _ { resolvers } id dialogue history
    refine ⟨questions, outcome, hruns, hruns.under_eq, ?_⟩
    rw [hsame, hrun]
  · intro hids id id' history
    rw [hsame, hsame]
    exact dialogue.run_eq_of_ignoresId hids rfl

/-- A scope with a variable and a function. -/
def tariffScope : Scope where
  registry := { variableNames := ["rate"], functionNames := ["Round"] }

/-- Two resolvers that know the variable, and one that knows the function. -/
def tariffResolvers : List Resolver :=
  [.ofVariables 0 fun _ _ => some (.text "old"), .ofVariables 1 fun _ _ => some (.text "new"),
    .ofFunctions 2 fun _ arguments _ => arguments.head?]

theorem Scope.exists_dialogue_tariff :
    (∀ r ∈ tariffResolvers, r.IgnoresId) ∧
      (evaluateText { tariffScope with resolvers := tariffResolvers } "[Round(rate), rate]"
          (some 7) []).1 =
        (evaluateText { tariffScope with resolvers := tariffResolvers } "[Round(rate), rate]"
          none []).1 ∧
      (evaluateText { tariffScope with resolvers := tariffResolvers } "[Round(rate), rate]"
          none []).1 = .ok (.array [.text "new", .text "new"]) := by
  have hids : ∀ r ∈ tariffResolvers, r.IgnoresId := by
    intro r hr
    simp only [tariffResolvers, List.mem_cons, List.not_mem_nil, or_false] at hr
    rcases hr with rfl | rfl | rfl
    · exact Resolver.ignoresId_ofVariables 0 _
    · exact Resolver.ignoresId_ofVariables 1 _
    · exact Resolver.ignoresId_ofFunctions 2 _
  obtain ⟨_, hdialogue⟩ := exists_dialogue tariffScope "[Round(rate), rate]"
  exact ⟨hids, (hdialogue tariffResolvers).2 hids (some 7) none [], by decide +kernel⟩

end Formula
