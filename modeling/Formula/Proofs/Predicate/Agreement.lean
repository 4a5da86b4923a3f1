import Formula.Predicate
import Formula.Proofs.Evaluation
import Formula.Proofs.Operator.Tables
import Formula.Proofs.Purity

/-! # Compiled tests agree with evaluation

Compiling settles every operator by the types of its operands, evaluation by the values it meets, and
each has rows of its own. The value a compiled part yields has the type of the part, and row by row
both sides compute the same. A tree that compiles therefore evaluates, on a record whose fields answer
for the names, to what its test yields there.
-/

namespace Formula

namespace Compiled

variable {ρ : Type}

/-- What the part yields on a record, the fields read left aside. -/
def value (part : Compiled ρ) (record : ρ) : Value :=
  (part.run record).result

@[simp]
theorem value_number (f : ρ → Reading Float) (record : ρ) :
    (number f).value record = .number (f record).result := rfl

@[simp]
theorem value_text (f : ρ → Reading String) (record : ρ) :
    (text f).value record = .text (f record).result := rfl

@[simp]
theorem value_bool (f : ρ → Reading Bool) (record : ρ) :
    (bool f).value record = .bool (f record).result := rfl

@[simp]
theorem value_array (f : ρ → Reading (List Value)) (record : ρ) :
    (array f).value record = .array (f record).result := rfl

@[simp]
theorem value_constant (v : Value) (record : ρ) :
    (constant v : Compiled ρ).value record = v := by
  cases v <;> rfl

/-- The type of a part is the type of all it yields. -/
@[simp]
theorem kind_value (part : Compiled ρ) (record : ρ) : (part.value record).kind = part.kind := by
  cases part <;> rfl

/-! ## Operators -/

theorem result_both {α β γ : Type} (f : α → β → γ) (left : ρ → Reading α) (right : ρ → Reading β)
    (record : ρ) :
    (both f left right record).result = f (left record).result (right record).result := rfl

theorem result_unlessSettled (decisive : Bool) (left right : ρ → Reading Bool) (record : ρ) :
    (unlessSettled decisive left right record).result =
      if (left record).result = decisive then decisive else (right record).result := by
  by_cases h : (left record).result = decisive <;> simp [unlessSettled, h]

/-- A compiled prefix operator computes what the operator makes of the value. -/
theorem apply_of_ofPrefix {op : PrefixOp} {x z : Compiled ρ} (h : ofPrefix op x = .ok z)
    (record : ρ) : op.apply (x.value record) = .ok (z.value record) := by
  cases op <;> cases x <;> simp only [ofPrefix, reduceCtorEq, Except.ok.injEq] at h <;> subst h <;> rfl

/-- Compiled equality is equality of the values, or the negation of it. -/
theorem value_of_equality {op : InfixOp} {negated : Bool} {x y z : Compiled ρ}
    (h : equality op negated x y = .ok z) (record : ρ) :
    z.value record = .bool ((x.value record).equal (y.value record) ^^ negated) := by
  cases x <;> cases y <;> simp only [equality, reduceCtorEq, Except.ok.injEq] at h <;> subst h <;>
    simp [result_both, Value.equal]

/-- What an infix operator compiles to: the joining of two texts, equality or the negation of it, or
the row of the operator. -/
theorem ofInfix_cases {op : InfixOp} {x y z : Compiled ρ} (h : ofInfix op x y = .ok z) :
    (op = .add ∧ (x.kind = .text ∨ y.kind = .text) ∧
        z = text (both (· ++ ·) x.display y.display)) ∨
      (op = .eq ∧ equality op false x y = .ok z) ∨ (op = .ne ∧ equality op true x y = .ok z) ∨
      row? op x y = some z := by
  unfold ofInfix at h
  split at h
  · cases h
  split at h
  · rename_i hjoin
    cases h
    exact .inl ⟨hjoin.1, hjoin.2, rfl⟩
  split at h
  · rename_i heq
    exact .inr (.inl ⟨heq, h⟩)
  split at h
  · rename_i hne
    exact .inr (.inr (.inl ⟨hne, h⟩))
  split at h
  · rename_i part hrow
    cases h
    exact .inr (.inr (.inr hrow))
  · cases h

/-- A compiled operator whose left operand may settle the result takes truth values, and leaves the
right one alone if it can. -/
theorem ofInfix_of_decisive {op : InfixOp} {decisive : Bool} {x y z : Compiled ρ}
    (h : ofInfix op x y = .ok z) (hop : op.decisive? = some decisive) :
    ∃ f g, x = bool f ∧ y = bool g ∧ z = bool (unlessSettled decisive f g) := by
  have hrow : row? op x y = some z := by
    rcases ofInfix_cases h with ⟨rfl, -⟩ | ⟨rfl, -⟩ | ⟨rfl, -⟩ | hrow
    · cases hop
    · cases hop
    · cases hop
    · exact hrow
  -- among numbers and texts no such operator has a row
  cases op with
  | and | or =>
    cases hop
    cases x <;> cases y <;> cases hrow
    exact ⟨_, _, rfl, rfl, rfl⟩
  | _ => cases hop

/-! ### The rows are those of evaluation -/

section Rows

variable {op : InfixOp} {z : Compiled ρ}

theorem apply_numeric {compute : Float → Float → Float} (hop : op.arithmetic? = some compute)
    (f g : ρ → Reading Float) (record : ρ) :
    op.apply (.number (f record).result) (.number (g record).result) =
      .ok ((numeric compute f g).value record) :=
  InfixOp.apply_numbers_of_arithmetic hop _ _

theorem apply_compare_numbers {holds : Float → Float → Bool}
    (hop : op.order?.map Order.ofNumbers = some holds) (f g : ρ → Reading Float) (record : ρ) :
    op.apply (.number (f record).result) (.number (g record).result) =
      .ok ((compare holds f g).value record) := by
  obtain ⟨order, horder, rfl⟩ := Option.map_eq_some_iff.mp hop
  exact InfixOp.apply_numbers_of_order horder _ _

theorem apply_compare_texts {holds : String → String → Bool}
    (hop : op.order?.map Order.ofTexts = some holds) (f g : ρ → Reading String) (record : ρ) :
    op.apply (.text (f record).result) (.text (g record).result) =
      .ok ((compare holds f g).value record) := by
  obtain ⟨order, horder, rfl⟩ := Option.map_eq_some_iff.mp hop
  exact InfixOp.apply_texts_of_order horder _ _

theorem apply_compare_bools {combine : Bool → Bool → Bool} (hop : op.logic? = some combine)
    (f g : ρ → Reading Bool) (record : ρ) :
    op.apply (.bool (f record).result) (.bool (g record).result) =
      .ok ((compare combine f g).value record) :=
  InfixOp.apply_bools_of_logic hop _ _

theorem apply_unlessSettled {decisive : Bool} (hop : op.decisive? = some decisive)
    (f g : ρ → Reading Bool) (record : ρ) :
    op.apply (.bool (f record).result) (.bool (g record).result) =
      .ok ((bool (unlessSettled decisive f g)).value record) := by
  rw [InfixOp.apply_bools_of_decisive hop, value_bool, result_unlessSettled]
  split
  · rename_i hsettled
    rw [hsettled]
  · rfl

theorem apply_of_ofNumbers {f g : ρ → Reading Float} (h : ofNumbers f g op = some z) (record : ρ) :
    op.apply (.number (f record).result) (.number (g record).result) = .ok (z.value record) := by
  cases op with
  | add | sub | mul | div | rem | shiftRight | shiftLeft | bitAnd | bitOr =>
    cases h
    exact apply_numeric rfl f g record
  | lt | le | gt | ge =>
    cases h
    exact apply_compare_numbers rfl f g record
  | _ => cases h

theorem apply_of_ofTexts {f g : ρ → Reading String} (h : ofTexts f g op = some z) (record : ρ) :
    op.apply (.text (f record).result) (.text (g record).result) = .ok (z.value record) := by
  cases op with
  | lt | le | gt | ge =>
    cases h
    exact apply_compare_texts rfl f g record
  | like =>
    cases h
    exact InfixOp.apply_like _ _
  | _ => cases h

theorem apply_of_ofBools {f g : ρ → Reading Bool} (h : ofBools f g op = some z) (record : ρ) :
    op.apply (.bool (f record).result) (.bool (g record).result) = .ok (z.value record) := by
  cases op with
  | bitAnd | bitOr =>
    cases h
    exact apply_compare_bools rfl f g record
  | and | or =>
    cases h
    exact apply_unlessSettled rfl f g record
  | _ => cases h

/-- A row computes what the operator makes of the two values. -/
theorem apply_of_row? {x y : Compiled ρ} (h : row? op x y = some z) (record : ρ) :
    op.apply (x.value record) (y.value record) = .ok (z.value record) := by
  cases x with
  | number f =>
    cases y with
    | number g => exact apply_of_ofNumbers h record
    | text g | bool g | array g => cases h
  | text f =>
    cases y with
    | text g => exact apply_of_ofTexts h record
    | number g | bool g | array g => cases h
  | bool f =>
    cases y with
    | bool g => exact apply_of_ofBools h record
    | number g | text g | array g => cases h
  | array f => cases y <;> cases h

end Rows

/-- A compiled operator computes what the operator makes of the two values. -/
theorem apply_of_ofInfix {op : InfixOp} {x y z : Compiled ρ} (h : ofInfix op x y = .ok z)
    (record : ρ) : op.apply (x.value record) (y.value record) = .ok (z.value record) := by
  rcases ofInfix_cases h with ⟨rfl, htext, rfl⟩ | ⟨rfl, h⟩ | ⟨rfl, h⟩ | hrow
  · -- a text on one side: both displays are joined
    exact InfixOp.apply_add_of_text (by simpa using htext)
  · rw [InfixOp.apply_eq, value_of_equality h record, Bool.xor_false]
  · rw [InfixOp.apply_ne, value_of_equality h record, Bool.xor_true]
  · exact apply_of_row? hrow record

end Compiled

/-! ## Trees -/

variable {ρ : Type} {scope : Scope} {binder : Binder ρ} {record : ρ}

/-- The resolvers of the scope answer for a bound name with what the binder reads from the record. -/
def Scope.AnswersFor (scope : Scope) (binder : Binder ρ) (record : ρ) : Prop :=
  ∀ name part, binder name = some part →
    ∀ history, (Resolver.ask (.lookup name none) scope.resolvers history).1 =
      some (part.value record)

/-- So they do under the id of an evaluation. -/
def Scope.AnswersUnder (scope : Scope) (id : Option Int) (binder : Binder ρ) (record : ρ) : Prop :=
  ∀ name part, binder name = some part →
    ∀ history, (Resolver.ask (.lookup name id) scope.resolvers history).1 =
      some (part.value record)

theorem Compiling.askBinder_eq_ok {name : String} {part : Compiled ρ} {requests : Requests}
    (h : (Compiling.askBinder binder name requests).1 = .ok part) : binder name = some part := by
  unfold Compiling.askBinder at h
  cases hname : binder name with
  | none => simp [hname] at h
  | some part' =>
    simp only [hname, Except.ok.injEq] at h
    rw [h]

/-- The parts of a tree that are evaluated when it is compiled. -/
def Tree.folded : Tree → List Tree
  | .literal _ | .reference _ => []
  | .unary _ operand => operand.folded
  | .binary _ left right => left.folded ++ right.folded
  | .array group => [.array group]
  | .call name group => [.call name group]

/-- The arrays and calls of the tree come to the same under the id as without one, whatever has been
asked before. -/
def Scope.Repeats (scope : Scope) (id : Option Int) (tree : Tree) : Prop :=
  ∀ part ∈ tree.folded, ∀ history history',
    (scope.evaluate id part history).1 = (scope.evaluate none part history').1

namespace Scope.Repeats

theorem left {id : Option Int} {op : InfixOp} {left right : Tree}
    (h : scope.Repeats id (.binary op left right)) : scope.Repeats id left :=
  fun part hpart => h part (List.mem_append_left _ hpart)

theorem right {id : Option Int} {op : InfixOp} {left right : Tree}
    (h : scope.Repeats id (.binary op left right)) : scope.Repeats id right :=
  fun part hpart => h part (List.mem_append_right _ hpart)

/-- Pure resolvers repeat themselves. -/
theorem of_isPure (hpure : scope.IsPure) (tree : Tree) : scope.Repeats none tree :=
  fun part _ => Scope.steady_evaluate hpure none part

end Scope.Repeats

/-- A tree that compiles evaluates to what its compiled part yields, if its arrays and calls come to
what they came to when it was compiled. -/
theorem Tree.evaluate_of_compile_of_repeats {id : Option Int} {tree : Tree}
    (hrepeats : scope.Repeats id tree) (hanswers : scope.AnswersUnder id binder record)
    {part : Compiled ρ} {requests : Requests}
    (h : (tree.compile scope binder requests).1 = .ok part) (history : History) :
    (scope.evaluate id tree history).1 = .ok (part.value record) := by
  induction tree generalizing part requests history with
  | literal value =>
    have hpart : Compiled.constant value = part := by simpa [Tree.compile] using h
    subst hpart
    simp [Scope.evaluate, Scope.evaluateWith]
  | reference name =>
    have hname : binder name = some part := Compiling.askBinder_eq_ok h
    have hanswer := hanswers name part hname history
    unfold Scope.evaluate Scope.evaluateWith Scope.ask
    rcases hask : Resolver.ask (.lookup name id) scope.resolvers history with ⟨answer, later⟩
    rw [hask] at hanswer
    simp only at hanswer
    rw [hanswer]
  | unary op operand ih =>
    rcases Recorded.bind_eq_ok h with ⟨x, requests', hx, hop⟩
    have hcompile : (operand.compile scope binder requests).1 = .ok x := by rw [hx]
    have hvalue := ih hrepeats hcompile history
    have happly := Compiled.apply_of_ofPrefix hop record
    rw [Scope.evaluate_unary, Recorded.bind_fst_of_ok hvalue, Recorded.ofExcept_apply, happly]
  | binary op left right ihl ihr =>
    rcases Recorded.bind_eq_ok h with ⟨x, requests', hx, h⟩
    rcases Recorded.bind_eq_ok h with ⟨y, requests'', hy, hop⟩
    have hcompilex : (left.compile scope binder requests).1 = .ok x := by rw [hx]
    have hcompiley : (right.compile scope binder requests').1 = .ok y := by rw [hy]
    have hleft := ihl hrepeats.left hcompilex history
    have hright := ihr hrepeats.right hcompiley
    cases hdecisive : op.decisive? with
    | none =>
      have happly := Compiled.apply_of_ofInfix hop record
      rw [Scope.evaluate_binary_of_eager hdecisive, Recorded.bind_fst_of_ok hleft,
        Recorded.bind_fst_of_ok (hright _), Recorded.ofExcept_apply, happly]
    | some decisive =>
      -- the right operand compiles but need not be evaluated
      rcases Compiled.ofInfix_of_decisive hop hdecisive with ⟨f, g, rfl, rfl, rfl⟩
      rw [Compiled.value_bool, Compiled.result_unlessSettled]
      by_cases hsettled : (f record).result = decisive
      · rw [if_pos hsettled]
        rw [Compiled.value_bool, hsettled] at hleft
        exact Scope.evaluate_binary_of_settled hdecisive right hleft
      · rw [if_neg hsettled]
        exact Scope.evaluate_binary_of_open hdecisive hsettled hleft hright
  | array group =>
    -- compiling evaluates the group on the requests made so far, which makes no difference
    rcases Recorded.map_eq_ok h with ⟨value, hvalue, hpart⟩
    subst hpart
    rw [Compiled.value_constant, ← hvalue]
    exact hrepeats (.array group) (List.mem_singleton_self _) history requests.history
  | call name group =>
    rcases Recorded.map_eq_ok h with ⟨value, hvalue, hpart⟩
    subst hpart
    rw [Compiled.value_constant, ← hvalue]
    exact hrepeats (.call name group) (List.mem_singleton_self _) history requests.history

theorem Tree.evaluate_of_compile (hpure : scope.IsPure) (hanswers : scope.AnswersFor binder record)
    {tree : Tree} {part : Compiled ρ} {requests : Requests}
    (h : (tree.compile scope binder requests).1 = .ok part) (history : History) :
    (scope.evaluate none tree history).1 = .ok (part.value record) :=
  evaluate_of_compile_of_repeats (.of_isPure hpure tree) hanswers h history

/-- A test yields on a record what its tree evaluates to in a scope that answers for the record. In
particular the evaluation succeeds. -/
theorem Predicate.evaluate_eq_test (hpure : scope.IsPure)
    (hanswers : scope.AnswersFor binder record) {tree : Tree} {p : Predicate ρ}
    {requests : Requests} (h : (Predicate.ofTreeIn scope binder tree requests).1 = .ok p)
    (history : History) : (scope.evaluate none tree history).1 = .ok (.bool (p.test record)) := by
  rcases Recorded.bind_eq_ok h with ⟨part, requests', hpart, hp⟩
  have hcompile : (tree.compile scope binder requests).1 = .ok part := by rw [hpart]
  have hvalue := Tree.evaluate_of_compile hpure hanswers hcompile history
  cases part with
  | bool run =>
    have hrun : Predicate.mk run = p := by simpa [Predicate.ofCompiled] using hp
    subst hrun
    exact hvalue
  | number run | text run | array run => simp [Predicate.ofCompiled] at hp

/-- Records of a name and an age, as a binder reads them. -/
def personBinder : Binder (String × Float)
  | "name" => some (.text fun person => { result := person.1, fields := ["name"] })
  | "age" => some (.number fun person => { result := person.2, fields := ["age"] })
  | _ => none

/-- A scope that answers for one such record, and knows a function without arguments. -/
def personScope (person : String × Float) : Scope where
  registry := { variableNames := ["name", "age"], functionNames := ["Limit"] }
  resolvers :=
    [.ofVariables 0 fun name _ =>
      if name = "name" then some (.text person.1)
      else if name = "age" then some (.number person.2) else none,
     .ofFunctions 1 fun name _ _ => if name = "Limit" then some (.number 18) else none]

theorem personScope_answersFor (person : String × Float) :
    (personScope person).AnswersFor personBinder person := by
  intro name part hname history
  unfold personBinder at hname
  split at hname
  · cases hname
    rfl
  · cases hname
    rfl
  · cases hname

theorem personScope_isPure (person : String × Float) : (personScope person).IsPure := by
  intro r hr
  simp only [personScope, List.mem_cons, List.not_mem_nil, or_false] at hr
  rcases hr with rfl | rfl
  · exact Resolver.isPure_ofVariables _ _
  · exact Resolver.isPure_ofFunctions _ _

/-- The tree of `name like 'oh' and age >= Limit()`. -/
def adultTree : Tree :=
  .binary .and (.binary .like (.reference "name") (.literal (.text "oh")))
    (.binary .ge (.reference "age") (.call "Limit" ⟨"", 29⟩))

theorem Predicate.evaluate_eq_test_adult :
    ∃ p, (Predicate.ofTreeIn (personScope ("John", 30)) personBinder adultTree {}).1 = .ok p ∧
      p.test ("John", 30) = true ∧
      ((personScope ("John", 30)).evaluate none adultTree []).1 =
        .ok (.bool (p.test ("John", 30))) := by
  have hpure := personScope_isPure ("John", 30)
  have hanswers := personScope_answersFor ("John", 30)
  rcases hp : (Predicate.ofTreeIn (personScope ("John", 30)) personBinder adultTree {}).1 with e | p
  · cases hp
  · refine ⟨p, rfl, ?_, Predicate.evaluate_eq_test hpure hanswers hp []⟩
    cases hp
    decide

end Formula
