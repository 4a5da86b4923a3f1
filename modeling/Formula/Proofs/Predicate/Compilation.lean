import Formula.Proofs.Dialogue
import Formula.Proofs.Predicate.Agreement

/-! # What compiling asks for

Compiling goes through a tree once, from left to right. The binder is asked for the references outside
arrays and calls, and the arrays and calls are evaluated without an id. A failure breaks this off at
some place of the tree. What a test needs of the answers is in it from then on, so that nothing is
asked for again when it is used.
-/

namespace Formula

/-! ## One evaluation after the other -/

/-- The references of a tree outside its arrays and calls, from left to right. -/
def Tree.references : Tree → List String
  | .reference name => [name]
  | .literal _ | .array _ | .call .. => []
  | .unary _ operand => operand.references
  | .binary _ left right => left.references ++ right.references

namespace Scope

variable {scope : Scope} {id : Option Int}

/-- Evaluates one tree after the other, each on the record the one before has left, whether that one
failed or not. -/
def evaluateEach (scope : Scope) (id : Option Int) :
    List Tree → History → List (Except Error Value) × History
  | [], history => ([], history)
  | tree :: rest, history =>
    let (outcome, history) := scope.evaluate id tree history
    let (outcomes, history) := evaluateEach scope id rest history
    (outcome :: outcomes, history)

theorem evaluateEach_cons (tree : Tree) (rest : List Tree) (history : History) :
    scope.evaluateEach id (tree :: rest) history =
      ((scope.evaluate id tree history).1 ::
          (scope.evaluateEach id rest (scope.evaluate id tree history).2).1,
        (scope.evaluateEach id rest (scope.evaluate id tree history).2).2) := rfl

/-- The second list is evaluated on the record the first one has left. -/
theorem evaluateEach_append (trees trees' : List Tree) (history : History) :
    scope.evaluateEach id (trees ++ trees') history =
      ((scope.evaluateEach id trees history).1 ++
          (scope.evaluateEach id trees' (scope.evaluateEach id trees history).2).1,
        (scope.evaluateEach id trees' (scope.evaluateEach id trees history).2).2) := by
  induction trees generalizing history with
  | nil => rfl
  | cons tree trees ih => simp only [List.cons_append, evaluateEach_cons, ih]

theorem length_evaluateEach (trees : List Tree) (history : History) :
    (scope.evaluateEach id trees history).1.length = trees.length := by
  induction trees generalizing history with
  | nil => rfl
  | cons tree trees ih => simp only [evaluateEach_cons, List.length_cons, ih]

/-- What has been asked stays on record. -/
theorem history_prefix_evaluate (tree : Tree) (history : History) :
    history <+: (scope.evaluate id tree history).2 := by
  obtain ⟨dialogue, hdialogue⟩ := @IsDialogue.evaluateWith scope _
    (fun group => IsDialogue.elements groupLimit scope group) tree
  have hrun : scope.evaluate id tree = dialogue.run { resolvers := scope.resolvers } id :=
    hdialogue scope.resolvers id
  obtain ⟨questions, outcome, -, hquestions⟩ :=
    @Dialogue.runs_run _ { resolvers := scope.resolvers } id dialogue history
  rw [hrun, hquestions]
  exact List.prefix_append history _

theorem history_prefix_evaluateEach (trees : List Tree) (history : History) :
    history <+: (scope.evaluateEach id trees history).2 := by
  induction trees generalizing history with
  | nil => exact List.prefix_rfl
  | cons tree trees ih => exact (history_prefix_evaluate tree history).trans (ih _)

/-- The first of the trees ask for the first of what all of them ask for. -/
theorem history_prefix_of_prefix {trees trees' : List Tree} (h : trees <+: trees')
    (history : History) :
    (scope.evaluateEach id trees history).2 <+: (scope.evaluateEach id trees' history).2 := by
  obtain ⟨rest, rfl⟩ := h
  rw [evaluateEach_append]
  exact history_prefix_evaluateEach rest _

end Scope

/-- What is made of a result without a record does not depend on the record. -/
theorem Recorded.bind_ofExcept_fst_congr {σ α β : Type} {x y : Recorded σ α} {r r' : σ}
    (f : α → Except Error β) (h : (x r).1 = (y r').1) :
    ((x >>= fun a => ofExcept (f a)) r).1 = ((y >>= fun a => ofExcept (f a)) r').1 := by
  rcases hx : x r with ⟨outcome, s⟩
  rcases hy : y r' with ⟨outcome', s'⟩
  rw [hx, hy] at h
  obtain rfl : outcome = outcome' := h
  cases outcome with
  | error e => rw [bind_of_error hx, bind_of_error hy]
  | ok a =>
    rw [bind_of_ok hx, bind_of_ok hy]
    rfl

/-! ## Trees -/

section Trees

variable {ρ : Type} {scope : Scope} {binder : Binder ρ}

/-- The requests after the names have been put to the binder and the trees evaluated without an id. -/
def Requests.after (scope : Scope) (requests : Requests) (names : List String) (trees : List Tree) :
    Requests where
  names := requests.names ++ names
  history := (scope.evaluateEach none trees requests.history).2

theorem Requests.after_nil (requests : Requests) : requests.after scope [] [] = requests := by
  simp [after, Scope.evaluateEach]

theorem Requests.after_after (requests : Requests) (names names' : List String)
    (trees trees' : List Tree) :
    (requests.after scope names trees).after scope names' trees' =
      requests.after scope (names ++ names') (trees ++ trees') := by
  simp only [after, Scope.evaluateEach_append, List.append_assoc]

/-- With these requests behind it, the computation has asked for what comes first among the names and
the trees, and for all of it if it has succeeded. -/
def Compiling.AsksFor {α : Type} (scope : Scope) (requests : Requests) (names : List String)
    (trees : List Tree) (result : Except Error α × Requests) : Prop :=
  ∃ asked evaluated, asked <+: names ∧ evaluated <+: trees ∧
    result.2 = requests.after scope asked evaluated ∧
    ∀ a, result.1 = .ok a → asked = names ∧ evaluated = trees

namespace Compiling.AsksFor

variable {α β : Type} {requests : Requests} {names names' : List String} {trees trees' : List Tree}

/-- A success has asked for everything. -/
theorem requests_of_ok {a : α} {result : Except Error α × Requests}
    (h : AsksFor scope requests names trees result) (ha : result.1 = .ok a) :
    result.2 = requests.after scope names trees := by
  obtain ⟨asked, evaluated, -, -, hresult, hall⟩ := h
  obtain ⟨rfl, rfl⟩ := hall a ha
  exact hresult

/-- What is done with the result without asking does not count. -/
theorem bind_ofExcept {x : Compiling α} {f : α → Except Error β}
    (h : AsksFor scope requests names trees (x requests)) :
    AsksFor scope requests names trees
      ((x >>= fun a => Recorded.ofExcept (f a)) requests) := by
  rcases hx : x requests with ⟨outcome, requests'⟩
  rw [hx] at h
  obtain ⟨asked, evaluated, hasked, hevaluated, hresult, hall⟩ := h
  cases outcome with
  | error e =>
    rw [Recorded.bind_of_error hx]
    exact ⟨asked, evaluated, hasked, hevaluated, hresult, fun _ => nofun⟩
  | ok a =>
    rw [Recorded.bind_of_ok hx]
    exact ⟨asked, evaluated, hasked, hevaluated, hresult, fun _ _ => hall a rfl⟩

/-- The second half goes on where the first has come to its end. -/
theorem bind {x : Compiling α} {f : α → Compiling β}
    (hx : AsksFor scope requests names trees (x requests))
    (hf : ∀ a, AsksFor scope (requests.after scope names trees) names' trees'
      (f a (requests.after scope names trees))) :
    AsksFor scope requests (names ++ names') (trees ++ trees') ((x >>= f) requests) := by
  rcases hrun : x requests with ⟨outcome, requests'⟩
  rw [hrun] at hx
  cases outcome with
  | error e =>
    obtain ⟨asked, evaluated, hasked, hevaluated, hresult, -⟩ := hx
    rw [Recorded.bind_of_error hrun]
    exact ⟨asked, evaluated, hasked.trans (List.prefix_append _ _),
      hevaluated.trans (List.prefix_append _ _), hresult, fun _ => nofun⟩
  | ok a =>
    obtain rfl : requests' = requests.after scope names trees := hx.requests_of_ok rfl
    obtain ⟨asked, evaluated, hasked, hevaluated, hresult, hall⟩ := hf a
    rw [Recorded.bind_of_ok hrun]
    refine ⟨names ++ asked, trees ++ evaluated, (List.prefix_append_right_inj names).mpr hasked,
      (List.prefix_append_right_inj trees).mpr hevaluated, ?_, ?_⟩
    · rw [hresult, Requests.after_after]
    · intro b hb
      obtain ⟨rfl, rfl⟩ := hall b hb
      exact ⟨rfl, rfl⟩

end Compiling.AsksFor

/-- Compiling asks the binder for the references and evaluates the arrays and calls. -/
theorem Tree.asksFor_compile (tree : Tree) (requests : Requests) :
    Compiling.AsksFor scope requests tree.references tree.folded
      (tree.compile scope binder requests) := by
  induction tree generalizing requests with
  | literal value =>
    refine ⟨[], [], List.prefix_rfl, List.prefix_rfl, ?_, fun _ _ => ⟨rfl, rfl⟩⟩
    exact requests.after_nil.symm
  | reference name =>
    refine ⟨[name], [], List.prefix_rfl, List.prefix_rfl, ?_, fun _ _ => ⟨rfl, rfl⟩⟩
    unfold compile Compiling.askBinder
    cases binder name with
    | none => rfl
    | some part => rfl
  | unary op operand ih => exact (ih requests).bind_ofExcept
  | binary op left right ihleft ihright =>
    refine (ihleft requests).bind ?_
    intro x
    exact (ihright _).bind_ofExcept
  | array group =>
    refine ⟨[], [.array group], List.prefix_rfl, List.prefix_rfl, ?_, fun _ _ => ⟨rfl, rfl⟩⟩
    rw [compile, Recorded.map_apply, Requests.after, List.append_nil]
    rfl
  | call name group =>
    refine ⟨[], [.call name group], List.prefix_rfl, List.prefix_rfl, ?_, fun _ _ => ⟨rfl, rfl⟩⟩
    rw [compile, Recorded.map_apply, Requests.after, List.append_nil]
    rfl

/-- What comes of compiling is settled by what the binder gives for the references and by what the
arrays and calls come to. -/
theorem Tree.compile_congr {scope' : Scope} {binder' : Binder ρ} {tree : Tree}
    {requests requests' : Requests} (hnames : ∀ name ∈ tree.references, binder' name = binder name)
    (hparts : (scope'.evaluateEach none tree.folded requests'.history).1 =
      (scope.evaluateEach none tree.folded requests.history).1) :
    (tree.compile scope' binder' requests').1 = (tree.compile scope binder requests).1 := by
  induction tree generalizing requests requests' with
  | literal value => rfl
  | reference name =>
    unfold compile Compiling.askBinder
    rw [hnames name List.mem_cons_self]
    cases binder name with
    | none => rfl
    | some part => rfl
  | unary op operand ih => exact Recorded.bind_ofExcept_fst_congr _ (ih hnames hparts)
  | binary op left right ihleft ihright =>
    rw [folded, Scope.evaluateEach_append, Scope.evaluateEach_append] at hparts
    obtain ⟨hpartsleft, hpartsright⟩ := List.append_inj hparts (by simp [Scope.length_evaluateEach])
    have hleft := ihleft (fun name hname => hnames name (List.mem_append_left _ hname)) hpartsleft
    rw [compile, compile]
    rcases hrun : left.compile scope binder requests with ⟨outcome, behind⟩
    rcases hrun' : left.compile scope' binder' requests' with ⟨outcome', behind'⟩
    have hasked : Compiling.AsksFor scope _ _ _ (left.compile scope binder requests) :=
      left.asksFor_compile requests
    have hasked' : Compiling.AsksFor scope' _ _ _ (left.compile scope' binder' requests') :=
      left.asksFor_compile requests'
    rw [hrun] at hleft hasked
    rw [hrun'] at hleft hasked'
    obtain rfl : outcome' = outcome := hleft
    cases outcome' with
    | error e => rw [Recorded.bind_of_error hrun, Recorded.bind_of_error hrun']
    | ok x =>
      -- both have evaluated the whole left operand, and go on with the right one
      obtain rfl := hasked.requests_of_ok rfl
      obtain rfl := hasked'.requests_of_ok rfl
      rw [Recorded.bind_of_ok hrun, Recorded.bind_of_ok hrun']
      exact Recorded.bind_ofExcept_fst_congr _
        (ihright (fun name hname => hnames name (List.mem_append_right _ hname)) hpartsright)
  | array group =>
    rw [compile, compile, Recorded.map_apply, Recorded.map_apply]
    exact congrArg (Except.map Compiled.constant) (List.cons.inj hparts).1
  | call name group =>
    rw [compile, compile, Recorded.map_apply, Recorded.map_apply]
    exact congrArg (Except.map Compiled.constant) (List.cons.inj hparts).1

/-! ## Predicates -/

/-- Making a test of what was compiled asks for nothing more. -/
theorem Predicate.asksFor_ofTreeIn (tree : Tree) (requests : Requests) :
    Compiling.AsksFor scope requests tree.references tree.folded
      (ofTreeIn scope binder tree requests) :=
  (tree.asksFor_compile requests).bind_ofExcept

/-- An expression that is missing or is not parsed asks for nothing, and one that is parsed is compiled
as its tree. A tree that becomes a predicate has put each of its references to the binder and has
evaluated each of its arrays and calls, once and in order; one that is refused has asked for what
comes first of this. Using the predicate asks for nothing, and nothing but the answers given by then
makes it what it is. -/
theorem Predicate.asked_while_compiling (binder : Binder ρ) (requests : Requests) :
    ofExpression binder none requests = (.error .missingExpression, requests) ∧
    (∀ (e : Expression) fault, e.parse = .error fault →
      ofExpression binder (some e) requests = (.error fault, requests)) ∧
    (∀ (e : Expression) tree, e.parse = .ok tree →
      ofExpression binder (some e) requests = ofTreeIn e.scope binder tree requests) ∧
    ∀ (scope : Scope) (tree : Tree),
      (∀ p after, ofTreeIn scope binder tree requests = (.ok p, after) →
        after.names = requests.names ++ tree.references ∧
          after.history = (scope.evaluateEach none tree.folded requests.history).2) ∧
      (∀ fault after, ofTreeIn scope binder tree requests = (.error fault, after) →
        (∃ asked, asked <+: tree.references ∧ after.names = requests.names ++ asked) ∧
          requests.history <+: after.history ∧
            after.history <+: (scope.evaluateEach none tree.folded requests.history).2) ∧
      (∀ records, (((fun p => (records.map p.test, p.filter records)) <$>
          ofTreeIn scope binder tree) requests).2 = (ofTreeIn scope binder tree requests).2) ∧
      ∀ scope' binder' requests',
        (∀ name ∈ tree.references, binder' name = binder name) →
          (scope'.evaluateEach none tree.folded requests'.history).1 =
              (scope.evaluateEach none tree.folded requests.history).1 →
            (ofTreeIn scope' binder' tree requests').1 = (ofTreeIn scope binder tree requests).1 := by
  refine ⟨rfl, ?_, ?_, ?_⟩
  · intro e fault h
    rw [ofExpression, h]
    rfl
  · intro e tree h
    rw [ofExpression, h]
    rfl
  · intro scope tree
    have hasks : Compiling.AsksFor scope _ _ _ (ofTreeIn scope binder tree requests) :=
      asksFor_ofTreeIn tree requests
    refine ⟨?_, ?_, ?_, ?_⟩
    · intro p after h
      rw [h] at hasks
      obtain rfl := hasks.requests_of_ok rfl
      exact ⟨rfl, rfl⟩
    · intro fault after h
      rw [h] at hasks
      obtain ⟨asked, evaluated, hasked, hevaluated, rfl, -⟩ := hasks
      exact ⟨⟨asked, hasked, rfl⟩, Scope.history_prefix_evaluateEach evaluated _,
        Scope.history_prefix_of_prefix hevaluated _⟩
    · intro records
      rw [Recorded.map_apply]
    · intro scope' binder' requests' hnames hparts
      exact Recorded.bind_ofExcept_fst_congr _ (Tree.compile_congr hnames hparts)

end Trees

/-- The expression `name like 'oh' and age >= Limit()`. -/
def adultExpression : Expression where
  text := "name like 'oh' and age >= Limit()"
  registry := (personScope ("John", 30)).registry
  resolvers := (personScope ("John", 30)).resolvers

/-- The tree of `-name > Limit()`. -/
def refusedTree : Tree :=
  .binary .gt (.unary .negate (.reference "name")) (.call "Limit" ⟨"", 14⟩)

/-- A text that ends too early, a test of an age, and a text that is negated before a limit is asked
for. -/
theorem Predicate.asked_while_compiling_adult :
    (∃ fault, (Expression.ofText "1 >=" {}).parse = .error fault ∧
      ofExpression personBinder (some (.ofText "1 >=" {})) {} = (.error fault, {})) ∧
    (∃ tree p after, adultExpression.parse = .ok tree ∧
      ofExpression personBinder (some adultExpression) {} = (.ok p, after) ∧
      after.names = ["name", "age"] ∧
      after.history = [⟨0, .call "Limit" [] none⟩, ⟨1, .call "Limit" [] none⟩] ∧
      (ofTreeIn (personScope ("Mary", 20)) personBinder tree after).1 = .ok p) ∧
    ∃ after, ofTreeIn (personScope ("John", 30)) personBinder refusedTree {} =
        (.error (.unsupportedOperator "-" "string"), after) ∧
      (∃ asked, asked <+: ["name"] ∧ after.names = [] ++ asked) ∧
      [] <+: after.history ∧
      after.history <+: [⟨0, .call "Limit" [] none⟩, ⟨1, .call "Limit" [] none⟩] := by
  obtain ⟨-, hunparsed, hparsed, htree⟩ := asked_while_compiling personBinder {}
  refine ⟨?_, ?_, ?_⟩
  · have hparse : (Expression.ofText "1 >=" {}).parse =
        .error (.positioned (.endOfText .operand) 4 0) := by decide +kernel
    exact ⟨_, hparse, hunparsed _ _ hparse⟩
  · let tree : Tree :=
      .binary .and (.binary .like (.reference "name") (.literal (.text "oh")))
        (.binary .ge (.reference "age") (.call "Limit" ⟨"", 32⟩))
    have hparse : adultExpression.parse = .ok tree := by decide +kernel
    obtain ⟨hok, -, -, hsettled⟩ := htree adultExpression.scope tree
    rcases hrun : ofTreeIn adultExpression.scope personBinder tree {} with ⟨outcome, after⟩
    cases outcome with
    | error e => cases hrun
    | ok p =>
      obtain ⟨hnames, hhistory⟩ := hok p after hrun
      have hasked : after.history = [⟨0, .call "Limit" [] none⟩, ⟨1, .call "Limit" [] none⟩] :=
        hhistory.trans (by decide +kernel)
      refine ⟨tree, p, after, hparse, (hparsed _ _ hparse).trans hrun, hnames, hasked, ?_⟩
      -- the limit is the same for Mary
      have hlimit : ((personScope ("Mary", 20)).evaluateEach none tree.folded after.history).1 =
          (adultExpression.scope.evaluateEach none tree.folded []).1 := by
        rw [hasked]
        decide +kernel
      exact (hsettled _ personBinder after (fun _ _ => rfl) hlimit).trans (congrArg Prod.fst hrun)
  · have hrun : ofTreeIn (personScope ("John", 30)) personBinder refusedTree {} =
        (.error (.unsupportedOperator "-" "string"), ⟨["name"], []⟩) := rfl
    exact ⟨_, hrun, (htree (personScope ("John", 30)) refusedTree).2.1 _ _ hrun⟩

end Formula
