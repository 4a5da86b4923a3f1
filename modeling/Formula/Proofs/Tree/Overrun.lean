import Formula.Proofs.Tree.Places

/-! # Where the budget runs out

What the parser is in the middle of when its budget is spent, and what is ahead of it then. A task
that runs out of budget fails with what the one that is stopped reports, and an error of the budget
comes from a task that is stopped. So the place of such an error can be read off the state in which
the parser was stopped.
-/

namespace Formula

/-- The fault is that the budget is spent. -/
def Fault.isOverrun : Fault → Bool
  | .tooDeep _ | .tooManyPrefixes => true
  | _ => false

/-- If the error is that the budget is spent, its fault is as the condition wants it. -/
def Error.ExplainedBy (e : Error) (P : Fault → Prop) : Prop :=
  ∀ fault offset length, e = .positioned fault offset length → fault.isOverrun = true → P fault

section Explained

variable {P : Fault → Prop}

/-- There is nothing to explain in other errors. -/
theorem Error.explainedBy_of_not_isOverrun {fault : Fault} {offset length : Nat}
    (h : fault.isOverrun = false) : (Error.positioned fault offset length).ExplainedBy P := by
  rintro _ _ _ ⟨⟩ htrue
  cases h.symm.trans htrue

/-- The lexer has no budget. -/
theorem Cursor.explainedBy_of_next {c c' : Cursor} {e : Error} (h : c.next = (.error e, c')) :
    e.ExplainedBy P := by
  obtain ⟨blanks, first, others, fault, lexeme, -, rfl, -, hfault⟩ := faultsAt_of_next h
  refine Error.explainedBy_of_not_isOverrun ?_
  cases fault with
  | tooDeep levels => exact hfault.elim
  | tooManyPrefixes => exact hfault.elim
  | _ => rfl

theorem Error.ExplainedBy.mono {Q : Fault → Prop} {e : Error} (h : e.ExplainedBy P)
    (hPQ : ∀ fault, P fault → Q fault) : e.ExplainedBy Q :=
  fun fault offset length he hfault => hPQ fault (h fault offset length he hfault)

end Explained

namespace Parser

/-! ## Taking tokens -/

section Taking

variable {least turns : Nat} {s s' : State} {setting : Setting}

/-- An infix operator that binds tightly enough is taken, and the text goes on. -/
structure TakesInfix (least : Nat) (op : InfixOp) (s s' : State) : Prop where
  ahead : s.ahead.bind Token.infixOp? = some op
  least_le : least ≤ op.precedence
  step : s'.From s.cursor
  goesOn : s'.ahead ≠ none

/-- A prefix operator is taken, and the text goes on. -/
structure TakesPrefix (op : PrefixOp) (s s' : State) : Prop where
  ahead : s.ahead.bind Token.prefixOp? = some op
  step : s'.From s.cursor
  goesOn : s'.ahead ≠ none

/-- A parenthesis is taken. -/
structure TakesParen (token : Token) (s s' : State) : Prop where
  ahead : s.ahead = some token
  kind_eq : token.kind = .opening
  isOpening_eq : token.isOpening "[" = false
  step : s'.From s.cursor

theorem TakesInfix.unique {op op' : InfixOp} {s'' : State} (h : TakesInfix least op s s')
    (h' : TakesInfix least op' s s'') : op = op' ∧ s' = s'' :=
  ⟨Option.some.inj (h.ahead.symm.trans h'.ahead), h.step.unique h'.step⟩

/-- A parenthesis is no prefix operator. -/
theorem TakesParen.prefixOp?_eq_none {token : Token} (h : TakesParen token s s') :
    s.ahead.bind Token.prefixOp? = none := by
  rw [h.ahead]
  show token.prefixOp? = none
  rw [Token.prefixOp?, h.kind_eq]

theorem TakesParen.not_takesPrefix {token : Token} {op : PrefixOp} {s'' : State}
    (h : TakesParen token s s') : ¬ TakesPrefix op s s'' := by
  intro htakes
  cases h.prefixOp?_eq_none.symm.trans htakes.ahead

theorem next_bind {α : Type} (f : Option Token → Parser α) (hs' : s'.From s.cursor) :
    (next >>= f) s = f s.ahead s' := by
  have hnext : next s = .ok (s.ahead, s') := by
    unfold next
    rw [hs']
  exact bind_of_ok hnext

/-- Behind an operator the loop goes on with its right operand. -/
theorem climb_of_takesInfix {op : InfixOp} {right : Nat → Parser Tree} {left : Tree}
    (h : TakesInfix least op s s') :
    climb right least (turns + 1) left s =
      (right (op.precedence + 1) >>= fun operand =>
        climb right least turns (.binary op left operand)) s' := by
  obtain ⟨token, htoken⟩ := Option.ne_none_iff_exists'.mp h.goesOn
  rw [climb, peek_bind, h.ahead]
  simp only [Nat.not_lt.mpr h.least_le, if_false]
  rw [next_bind _ h.step, peek_bind, htoken]
  rfl

/-- Behind a prefix operator there is its operand, or no budget for it. -/
theorem operandOver_of_takesPrefix {op : PrefixOp} {inside : Parser Tree}
    {below : Option (Parser Tree)} (h : TakesPrefix op s s') :
    operandOver setting inside below s =
      (match below with
        | some operand => Tree.unary op <$> operand
        | none => fail .tooManyPrefixes s'.cursor.position 0) s' := by
  obtain ⟨token, htoken⟩ := Option.ne_none_iff_exists'.mp h.goesOn
  rw [operandOver, peek_bind, h.ahead]
  simp only
  rw [next_bind _ h.step, peek_bind, htoken]
  cases below with
  | none => rfl
  | some operand => rfl

/-- Behind a parenthesis there is an expression, and what closes it. -/
theorem operandOver_of_takesParen {token : Token} {inside : Parser Tree}
    {below : Option (Parser Tree)} (h : TakesParen token s s') :
    operandOver setting inside below s =
      (inside >>= fun tree => close token.position >>= fun _ => pure tree) s' := by
  rw [operandOver, peek_bind, h.prefixOp?_eq_none]
  simp only
  rw [primary, peek_bind, h.ahead]
  simp only [h.isOpening_eq, Bool.false_eq_true, if_false]
  rw [next_bind _ h.step]
  simp only [h.kind_eq]

end Taking

/-! ## The descent -/

/-- What the parser is in the middle of, and what is left of its budget. -/
inductive Task where
  | operand (budget : Nat)
  | expression (budget least : Nat)
  | operators (budget least turns : Nat) (left : Tree)

/-- The parser for it. -/
def Task.parser (setting : Setting) : Task → Parser Tree
  | .operand budget => (stage setting budget).operand
  | .expression budget least => (stage setting budget).expression least
  | .operators budget least turns left => climb (stage setting budget).expression least turns left

/-- From the first state the task comes to where the budget is spent, with the fault, and is stopped
in the second state. All cases but the first two hand on to a part of the task. -/
inductive RunsOut (setting : Setting) : Task → State → Fault → State → Prop where
  | expression {least : Nat} {s : State} :
      RunsOut setting (.expression 0 least) s (.tooDeep nestingLimit) s
  | operand {op : PrefixOp} {s s' : State} (htakes : TakesPrefix op s s') :
      RunsOut setting (.operand 0) s .tooManyPrefixes s'
  | first {budget least : Nat} {s stop : State} {fault : Fault}
      (h : RunsOut setting (.operand budget) s fault stop) :
      RunsOut setting (.expression (budget + 1) least) s fault stop
  | others {budget least : Nat} {s s' stop : State} {fault : Fault} {left : Tree}
      (hrun : (stage setting budget).operand s = .ok (left, s'))
      (h : RunsOut setting (.operators budget least setting.turns left) s' fault stop) :
      RunsOut setting (.expression (budget + 1) least) s fault stop
  | right {budget least turns : Nat} {op : InfixOp} {s s' stop : State} {fault : Fault}
      {left : Tree}
      (htakes : TakesInfix least op s s')
      (h : RunsOut setting (.expression budget (op.precedence + 1)) s' fault stop) :
      RunsOut setting (.operators budget least (turns + 1) left) s fault stop
  | turn {budget least turns : Nat} {op : InfixOp} {s s' s'' stop : State} {fault : Fault}
      {left operand : Tree} (htakes : TakesInfix least op s s')
      (hrun : (stage setting budget).expression (op.precedence + 1) s' = .ok (operand, s''))
      (h : RunsOut setting (.operators budget least turns (.binary op left operand)) s'' fault
        stop) :
      RunsOut setting (.operators budget least (turns + 1) left) s fault stop
  | inside {budget : Nat} {token : Token} {s s' stop : State} {fault : Fault}
      (htakes : TakesParen token s s') (h : RunsOut setting (.expression budget 0) s' fault stop) :
      RunsOut setting (.operand budget) s fault stop
  | behind {budget : Nat} {op : PrefixOp} {s s' stop : State} {fault : Fault}
      (htakes : TakesPrefix op s s') (h : RunsOut setting (.operand budget) s' fault stop) :
      RunsOut setting (.operand (budget + 1)) s fault stop

/-- Where a parser stopped in the state says that the fault is. -/
def State.placeOf (s : State) : Fault → Nat
  | .tooManyPrefixes => s.cursor.position
  | _ => (s.ahead.map (·.position)).getD 0

/-- A parser that keeps to the text leaves the state on it. -/
theorem State.On.of_run {text : List Char} {x : Parser Tree} {s s' : State} {tree : Tree}
    (hs : s.On text) (hx : Keeps text x) (hrun : x s = .ok (tree, s')) : s'.On text := by
  have hkeeps := hx hs
  rw [Meets, hrun] at hkeeps
  exact hkeeps.2

namespace RunsOut

variable {setting : Setting} {task : Task} {s stop : State} {fault : Fault}

/-- A task that runs out of budget fails with the fault, wherever it is stopped. -/
theorem fails (h : RunsOut setting task s fault stop) :
    task.parser setting s = .error (.positioned fault (stop.placeOf fault) 0) := by
  induction h with
  | expression => rfl
  | operand htakes =>
    show (stage setting 0).operand _ = _
    rw [operand_stage_zero, operandOver_of_takesPrefix htakes]
    rfl
  | first _ ih => exact bind_of_error ih
  | others hrun _ ih => exact (bind_of_ok hrun).trans ih
  | right htakes _ ih => exact (climb_of_takesInfix htakes).trans (bind_of_error ih)
  | turn htakes hrun _ ih => exact (climb_of_takesInfix htakes).trans ((bind_of_ok hrun).trans ih)
  | @inside budget _ _ _ _ _ htakes _ ih =>
    obtain ⟨below, hstage⟩ := operand_stage setting budget
    show (stage setting budget).operand _ = _
    rw [hstage, operandOver_of_takesParen htakes]
    exact bind_of_error ih
  | @behind budget _ _ _ _ _ htakes _ ih =>
    show (stage setting (budget + 1)).operand _ = _
    rw [operand_stage_succ, operandOver_of_takesPrefix htakes]
    simp only [map_eq_pure_bind]
    exact bind_of_error ih

/-- A part that was finished has not run out of budget. -/
theorem not_of_ok {tree : Tree} {s' : State} (hrun : task.parser setting s = .ok (tree, s')) :
    ¬ RunsOut setting task s fault stop := by
  intro h
  cases hrun.symm.trans h.fails

/-- A task is stopped in one state only. -/
theorem unique {fault' : Fault} {stop' : State} (h : RunsOut setting task s fault stop)
    (h' : RunsOut setting task s fault' stop') : stop = stop' := by
  -- a part that was finished has not failed, so both runs hand on to the same part
  induction h generalizing fault' stop' with
  | expression =>
    cases h'
    rfl
  | operand htakes =>
    cases h' with
    | operand htakes' => exact htakes.step.unique htakes'.step
    | inside htakes' _ => exact absurd htakes htakes'.not_takesPrefix
  | first h ih =>
    cases h' with
    | first h' => exact ih h'
    | others hrun _ => exact absurd h (not_of_ok hrun)
  | others hrun _ ih =>
    cases h' with
    | first h' => exact absurd h' (not_of_ok hrun)
    | others hrun' h' =>
      cases hrun.symm.trans hrun'
      exact ih h'
  | right htakes h ih =>
    cases h' with
    | right htakes' h' =>
      obtain ⟨rfl, rfl⟩ := htakes.unique htakes'
      exact ih h'
    | turn htakes' hrun _ =>
      obtain ⟨rfl, rfl⟩ := htakes.unique htakes'
      exact absurd h (not_of_ok hrun)
  | turn htakes hrun _ ih =>
    cases h' with
    | right htakes' h' =>
      obtain ⟨rfl, rfl⟩ := htakes.unique htakes'
      exact absurd h' (not_of_ok hrun)
    | turn htakes' hrun' h' =>
      obtain ⟨rfl, rfl⟩ := htakes.unique htakes'
      cases hrun.symm.trans hrun'
      exact ih h'
  | inside htakes _ ih =>
    cases h' with
    | operand htakes' => exact absurd htakes' htakes.not_takesPrefix
    | inside htakes' h' =>
      obtain rfl := htakes.step.unique htakes'.step
      exact ih h'
    | behind htakes' _ => exact absurd htakes' htakes.not_takesPrefix
  | behind htakes _ ih =>
    cases h' with
    | inside htakes' _ => exact absurd htakes htakes'.not_takesPrefix
    | behind htakes' h' =>
      obtain rfl := htakes.step.unique htakes'.step
      exact ih h'

/-- The task has not left the text when it is stopped. -/
theorem on {text : List Char} (h : RunsOut setting task s fault stop) (hs : s.On text) :
    stop.On text := by
  induction h with
  | expression => exact hs
  | operand htakes => exact hs.step htakes.step
  | first _ ih => exact ih hs
  | others hrun _ ih => exact ih (hs.of_run (keeps_stage _).1 hrun)
  | right htakes _ ih => exact ih (hs.step htakes.step)
  | turn htakes hrun _ ih =>
    exact ih ((hs.step htakes.step).of_run ((keeps_stage _).2 _) hrun)
  | inside htakes _ ih => exact ih (hs.step htakes.step)
  | behind htakes _ ih => exact ih (hs.step htakes.step)

/-- It is stopped before an expression, or before the operand of a prefix operator. Then a token is
ahead, and the cursor stands right behind it. -/
theorem stopped (h : RunsOut setting task s fault stop) :
    fault = .tooDeep nestingLimit ∨ fault = .tooManyPrefixes ∧
      ∃ token, stop.ahead = some token ∧ stop.cursor.position = token.position + token.length := by
  induction h with
  | expression => exact Or.inl rfl
  | operand htakes =>
    obtain ⟨token, htoken⟩ := Option.ne_none_iff_exists'.mp htakes.goesOn
    have hstep := htakes.step
    rw [State.From, htoken] at hstep
    obtain ⟨blanks, lexeme, hcuts⟩ := Cursor.cuts_of_next hstep
    exact Or.inr ⟨rfl, token, htoken, hcuts.behind⟩
  | first _ ih => exact ih
  | others _ _ ih => exact ih
  | right _ _ ih => exact ih
  | turn _ _ _ ih => exact ih
  | inside _ _ ih => exact ih
  | behind _ _ ih => exact ih

end RunsOut

/-! ## Errors of the budget -/

/-- If the error is that the budget is spent, the task runs out of budget from the state. -/
def Task.Explains (setting : Setting) (task : Task) (s : State) (e : Error) : Prop :=
  e.ExplainedBy fun fault => ∃ stop, RunsOut setting task s fault stop

/-- From every state the task explains its errors. -/
def Task.Traced (setting : Setting) (task : Task) : Prop :=
  ∀ s, Meets (task.parser setting) s (fun a s' => task.parser setting s = .ok (a, s'))
    (task.Explains setting s)

variable {setting : Setting} {task : Task} {s : State} {budget : Nat}

/-- A success is known for the run it is. -/
theorem meets_run {α : Type} {x : Parser α} {failure : Error → Prop}
    (h : Meets x s (fun _ _ => True) failure) :
    Meets x s (fun a s' => x s = .ok (a, s')) failure := by
  unfold Meets at h ⊢
  cases hrun : x s with
  | error e =>
    rw [hrun] at h
    exact h
  | ok result => exact rfl

/-- An error of a part is explained by what the part explains. -/
theorem Task.Explains.of_part {part : Task} {s' : State} {e : Error}
    (h : part.Explains setting s' e)
    (hpart : ∀ fault stop, RunsOut setting part s' fault stop → RunsOut setting task s fault stop) :
    task.Explains setting s e :=
  h.mono fun fault hstop => hstop.imp (hpart fault)

/-- Groups are captured without regard to the budget. -/
theorem meets_group_of_explains {opening : Char} {openedAt : Nat} {s' : State} :
    Meets (group setting opening openedAt) s' (fun _ _ => True) (task.Explains setting s) := by
  refine meets_group ?_ ?_ ?_
  · intro _
    exact Error.explainedBy_of_not_isOverrun rfl
  · intro e c htake
    unfold Cursor.takeGroup at htake
    split at htake
    · cases htake
    · cases htake
      exact Error.explainedBy_of_not_isOverrun rfl
  · intro _ text offset c _
    exact ⟨fun e c' hnext => Cursor.explainedBy_of_next hnext, fun _ _ => trivial⟩

theorem meets_name_of_explains {token : Token} {s' : State} :
    Meets (name setting token) s' (fun _ _ => True) (task.Explains setting s) := by
  refine meets_name (fun _ => trivial) ?_ (meets_nameAlone ?_ ?_ ?_ ?_)
  · intro _ _ _ _
    exact meets_map meets_group_of_explains
  · exact fun _ _ => trivial
  · exact fun _ => trivial
  · exact fun _ => Error.explainedBy_of_not_isOverrun rfl
  · exact Error.explainedBy_of_not_isOverrun rfl

theorem meets_close_of_explains {openedAt : Nat} {s' : State} :
    Meets (close openedAt) s' (fun _ _ => True) (task.Explains setting s) := by
  refine meets_close (fun e c hnext => Cursor.explainedBy_of_next hnext) ?_ ?_ ?_
  · exact fun _ => Error.explainedBy_of_not_isOverrun rfl
  · exact fun _ _ _ _ _ => trivial
  · exact fun _ _ _ => Error.explainedBy_of_not_isOverrun rfl

/-- So only the parenthesis hands on its budget. -/
theorem meets_primary_of_traced (hinside : Task.Traced setting (.expression budget 0)) :
    Meets (primary setting ((stage setting budget).expression 0)) s (fun _ _ => True)
      ((Task.operand budget).Explains setting s) := by
  refine meets_primary ?_ ?_ ?_
  · intro _
    exact Error.explainedBy_of_not_isOverrun rfl
  · intro token _ _
    exact meets_map meets_group_of_explains
  · intro token hahead hbracket
    refine meets_next ?_ fun e c hnext => Cursor.explainedBy_of_next hnext
    intro s' hs'
    unfold operandFrom
    split
    · exact meets_pure trivial
    · exact meets_pure trivial
    · exact meets_name_of_explains
    · rename_i hkind
      have htakes : TakesParen token s s' := ⟨hahead, hkind, hbracket, hs'⟩
      refine meets_bind ((hinside s').mono (fun _ _ => id) ?_) ?_
      · exact fun e he => he.of_part fun _ _ => .inside htakes
      · intro tree s'' _
        exact meets_bind meets_close_of_explains fun _ _ _ => meets_pure trivial
    all_goals exact meets_fail (Error.explainedBy_of_not_isOverrun rfl)

theorem meets_operandOver_of_traced {below : Option (Parser Tree)}
    (hinside : Task.Traced setting (.expression budget 0))
    (hbelow : ∀ op s', TakesPrefix op s s' →
      match below with
      | some operand =>
        Meets (Tree.unary op <$> operand) s' (fun _ _ => True)
          ((Task.operand budget).Explains setting s)
      | none =>
        (Task.operand budget).Explains setting s
          (.positioned .tooManyPrefixes s'.cursor.position 0)) :
    Meets (operandOver setting ((stage setting budget).expression 0) below) s (fun _ _ => True)
      ((Task.operand budget).Explains setting s) := by
  refine meets_operandOver (fun _ => meets_primary_of_traced hinside) ?_
  intro op hop
  refine ⟨fun e c hnext => Cursor.explainedBy_of_next hnext, ?_⟩
  intro s' hs'
  constructor
  · intro _
    exact Error.explainedBy_of_not_isOverrun rfl
  · intro hgoesOn
    exact hbelow op s' ⟨hop, hs', hgoesOn⟩

namespace Task

/-- An operand explains its errors if the expression in parentheses explains its own, and so does
the operand of a prefix operator, if there is budget for it. -/
theorem traced_operand (hinside : Traced setting (.expression budget 0))
    (hbelow : ∀ less, budget = less + 1 → Traced setting (.operand less)) :
    Traced setting (.operand budget) := by
  intro s
  cases budget with
  | zero =>
    have hspent : ∀ op s', TakesPrefix op s s' →
        (operand 0).Explains setting s (.positioned .tooManyPrefixes s'.cursor.position 0) := by
      rintro op s' htakes _ _ _ ⟨⟩ _
      exact ⟨s', .operand htakes⟩
    exact meets_run (@meets_operandOver_of_traced setting s 0 none hinside hspent)
  | succ less =>
    have hbehind : ∀ op s', TakesPrefix op s s' →
        Meets (Tree.unary op <$> (stage setting less).operand) s' (fun _ _ => True)
          ((operand (less + 1)).Explains setting s) := by
      intro op s' htakes
      refine meets_map ((hbelow less rfl s').mono (fun _ _ _ => trivial) ?_)
      exact fun e he => he.of_part fun _ _ => .behind htakes
    exact meets_run (@meets_operandOver_of_traced setting s (less + 1) (some _) hinside hbehind)

/-- The loop over the operators explains its errors by those of the right operands. -/
theorem traced_operators (hright : ∀ least, Traced setting (.expression budget least))
    (least turns : Nat) (left : Tree) : Traced setting (.operators budget least turns left) := by
  intro s
  -- on the turns: the loop goes on behind a right operand with one turn less
  induction turns generalizing left s with
  | zero => exact rfl
  | succ turns ih =>
    have hloop : Meets (climb (stage setting budget).expression least (turns + 1) left) s
        (fun _ _ => True) ((operators budget least (turns + 1) left).Explains setting s) := by
      refine meets_climb_succ (fun _ => trivial) ?_
      intro op hop hle
      refine ⟨fun e c hnext => Cursor.explainedBy_of_next hnext, ?_⟩
      intro s' hs'
      constructor
      · intro _
        exact Error.explainedBy_of_not_isOverrun rfl
      · intro hgoesOn
        have htakes : TakesInfix least op s s' := ⟨hop, hle, hs', hgoesOn⟩
        refine (hright _ s').mono ?_ ?_
        · intro operand s'' hrun
          refine (ih (.binary op left operand) s'').mono (fun _ _ _ => trivial) ?_
          exact fun e he => he.of_part fun _ _ => .turn htakes hrun
        · exact fun e he => he.of_part fun _ _ => .right htakes
    exact meets_run hloop

/-- An expression explains its errors by its first operand, and by the loop behind it. -/
theorem traced_expression (hoperand : Traced setting (.operand budget))
    (hright : ∀ least, Traced setting (.expression budget least)) (least : Nat) :
    Traced setting (.expression (budget + 1) least) := by
  intro s
  refine meets_run (meets_bind ((hoperand s).mono (fun _ _ => id) ?_) ?_)
  · exact fun e he => he.of_part fun _ _ => .first
  · intro left s' hrun
    refine (traced_operators hright least setting.turns left s').mono (fun _ _ _ => trivial) ?_
    exact fun e he => he.of_part fun _ _ => .others hrun

/-- Every task explains its errors. -/
theorem traced_stage (budget : Nat) :
    Traced setting (.operand budget) ∧ ∀ least, Traced setting (.expression budget least) := by
  induction budget with
  | zero =>
    have hexpression : ∀ least, Traced setting (.expression 0 least) := by
      rintro least s _ _ _ ⟨⟩ _
      exact ⟨s, .expression⟩
    exact ⟨traced_operand (hexpression 0) nofun, hexpression⟩
  | succ budget ih =>
    have hexpression := traced_expression ih.1 ih.2
    refine ⟨traced_operand (hexpression 0) ?_, hexpression⟩
    rintro _ ⟨⟩
    exact ih.1

end Task

/-- The place of the first token that has not been taken, or the end of the text if none is left. -/
def State.front (text : String) (s : State) : Nat :=
  (s.ahead.map (·.position)).getD text.length

/-- Before an expression that place is reported, unless the text has ended. -/
theorem State.placeOf_eq_front_iff (s : State) (levels : Nat) (text : String) :
    s.placeOf (.tooDeep levels) = s.front text ↔ (s.ahead = none → text = "") := by
  have hempty : 0 = text.length ↔ text = "" := by
    rw [eq_comm, ← String.length_toList, List.length_eq_zero_iff, String.toList_eq_nil_iff]
  cases hahead : s.ahead with
  | none => simpa [placeOf, front, hahead] using hempty
  | some token => simp [placeOf, front, hahead]

/-- Behind the token ahead is not where it stands. -/
theorem State.front_lt {token : Token} {text : String} (hs : s.On text.toList)
    (hahead : s.ahead = some token) : s.front text < token.position + token.length := by
  obtain ⟨lexeme, -, hne, hlength, -⟩ := hs.ahead hahead
  have hpos := List.length_pos_iff.mpr hne
  have hfront : s.front text = token.position := by simp [front, hahead]
  omega

end Parser

/-! ## Whole texts -/

namespace Scope

variable {scope : Scope} {text : String} {fault : Fault} {stop : Parser.State}

/-- The budget that the groups around the text leave runs out, with the fault, and the parser is
stopped in the state. -/
def RunsOut (scope : Scope) (text : String) (fault : Fault) (stop : Parser.State) : Prop :=
  ∃ start : Parser.State, start.From (Cursor.ofText text) ∧
    Parser.RunsOut ⟨scope.registry.names scope.mode, scope.depth, text.length + 1⟩
      (.expression (nestingLimit - scope.depth) 0) start fault stop

theorem RunsOut.fails (h : scope.RunsOut text fault stop) :
    scope.parse text = .error (.positioned fault (stop.placeOf fault) 0) := by
  obtain ⟨start, hstart, hruns⟩ := h
  have hwhole : Parser.whole ⟨scope.registry.names scope.mode, scope.depth, text.length + 1⟩
      (nestingLimit - scope.depth) start = .error (.positioned fault (stop.placeOf fault) 0) :=
    Parser.bind_of_error hruns.fails
  rw [Scope.parse, Parser.parse_eq_map_whole hstart, hwhole]
  rfl

theorem RunsOut.stopped (h : scope.RunsOut text fault stop) :
    fault = .tooDeep nestingLimit ∨ fault = .tooManyPrefixes ∧
      ∃ token, stop.ahead = some token ∧
        stop.cursor.position = token.position + token.length := by
  obtain ⟨start, -, hruns⟩ := h
  exact hruns.stopped

theorem RunsOut.on (h : scope.RunsOut text fault stop) : stop.On text.toList := by
  obtain ⟨start, hstart, hruns⟩ := h
  exact hruns.on ⟨Cursor.ofText text, Cursor.on_ofText text, hstart⟩

/-- An error of the budget comes of its running out. -/
theorem explainedBy_of_parse {e : Error} (h : scope.parse text = .error e) :
    e.ExplainedBy fun fault => ∃ stop, scope.RunsOut text fault stop := by
  have hparse : Parser.Ends (scope.parse text) (fun _ => True) fun e =>
      e.ExplainedBy fun fault => ∃ stop, scope.RunsOut text fault stop := by
    refine Parser.parse_meets (fun e cursor hnext => Cursor.explainedBy_of_next hnext) ?_
    intro s hs
    refine Parser.meets_whole (((Parser.Task.traced_stage _).2 0 s).mono ?_ ?_)
    · intro tree s' _
      exact ⟨fun _ => trivial, fun token _ => Error.explainedBy_of_not_isOverrun rfl⟩
    · intro e he
      refine he.mono ?_
      rintro fault ⟨stop, hruns⟩
      exact ⟨stop, s, hs, hruns⟩
  rw [h] at hparse
  exact hparse

theorem RunsOut.unique {fault' : Fault} {stop' : Parser.State} (h : scope.RunsOut text fault stop)
    (h' : scope.RunsOut text fault' stop') : stop = stop' := by
  obtain ⟨start, hstart, hruns⟩ := h
  obtain ⟨start', hstart', hruns'⟩ := h'
  obtain rfl := hstart.unique hstart'
  exact hruns.unique hruns'

/-- An error of the budget is reported from the one state in which its running out has stopped the
parser. Before an expression it is reported at the token ahead, but at the start of the text if no
token is left. Before the operand of a prefix operator it is reported behind the token ahead. So it
stands where the first token that has not been taken stands, or at the end of the text, before
expressions only, and there only if a token is left or the text is empty. -/
theorem place_of_overrun (scope : Scope) (text : String) :
    (∀ fault offset length, scope.parse text = .error (.positioned fault offset length) →
      fault.isOverrun = true → ∃ stop, scope.RunsOut text fault stop) ∧
    ∀ fault stop, scope.RunsOut text fault stop →
      (∀ fault' stop', scope.RunsOut text fault' stop' → stop = stop') ∧ stop.On text.toList ∧
      (fault = .tooDeep 256 ∧
          scope.parse text = .error (.positioned fault ((stop.ahead.map (·.position)).getD 0) 0) ∨
        fault = .tooManyPrefixes ∧ ∃ token, stop.ahead = some token ∧
          scope.parse text = .error (.positioned fault (token.position + token.length) 0)) ∧
      ∀ offset length, scope.parse text = .error (.positioned fault offset length) →
        (offset = stop.front text ↔ fault = .tooDeep 256 ∧ (stop.ahead = none → text = "")) := by
  constructor
  · intro fault offset length h hfault
    exact explainedBy_of_parse h fault offset length rfl hfault
  · intro fault stop h
    refine ⟨fun _ _ h' => h.unique h', h.on, ?_⟩
    rcases h.stopped with rfl | ⟨rfl, token, hahead, hcursor⟩
    · refine ⟨Or.inl ⟨rfl, h.fails⟩, ?_⟩
      intro offset length hparse
      cases h.fails.symm.trans hparse
      exact (stop.placeOf_eq_front_iff 256 text).trans (and_iff_right rfl).symm
    · have hplace : stop.placeOf .tooManyPrefixes = token.position + token.length := hcursor
      refine ⟨Or.inr ⟨rfl, token, hahead, hplace ▸ h.fails⟩, ?_⟩
      intro offset length hparse
      cases h.fails.symm.trans hparse
      have hlt := Parser.State.front_lt h.on hahead
      rw [hplace]
      exact ⟨fun heq => absurd heq hlt.ne', nofun⟩

/-- A scope whose groups leave one level. -/
def fullScope : Scope where
  depth := 255

/-- The name in `(x` is reported where it stands. The end of `(` is reported at the start of the
text, and the name in `-x` one character too far to the right. -/
theorem place_of_overrun_full :
    (∃ stop, fullScope.RunsOut "(x" (.tooDeep 256) stop ∧
      fullScope.parse "(x" = .error (.positioned (.tooDeep 256) 1 0) ∧ stop.front "(x" = 1) ∧
    (∃ stop, fullScope.RunsOut "(" (.tooDeep 256) stop ∧
      fullScope.parse "(" = .error (.positioned (.tooDeep 256) 0 0) ∧ stop.front "(" = 1) ∧
    ∃ stop, fullScope.RunsOut "-x" .tooManyPrefixes stop ∧
      fullScope.parse "-x" = .error (.positioned .tooManyPrefixes 2 0) ∧ stop.front "-x" = 1 := by
  let opening : Token := ⟨.opening, "(", 0, 1⟩
  let sign : Token := ⟨.operator, "-", 0, 1⟩
  let atName : Parser.State := ⟨some ⟨.identifier, "x", 1, 1⟩, ⟨[], 2⟩⟩
  let atEnd : Parser.State := ⟨none, ⟨[], 1⟩⟩
  have hname : fullScope.RunsOut "(x" (.tooDeep 256) atName := by
    let start : Parser.State := ⟨some opening, ⟨['x'], 1⟩⟩
    have htakes : Parser.TakesParen opening start atName := ⟨rfl, rfl, rfl, rfl⟩
    exact ⟨start, rfl, .first (.inside htakes .expression)⟩
  have hend : fullScope.RunsOut "(" (.tooDeep 256) atEnd := by
    let start : Parser.State := ⟨some opening, ⟨[], 1⟩⟩
    have htakes : Parser.TakesParen opening start atEnd := ⟨rfl, rfl, rfl, rfl⟩
    exact ⟨start, rfl, .first (.inside htakes .expression)⟩
  have hsign : fullScope.RunsOut "-x" .tooManyPrefixes atName := by
    let start : Parser.State := ⟨some sign, ⟨['x'], 1⟩⟩
    have htakes : Parser.TakesPrefix .negate start atName := ⟨rfl, rfl, nofun⟩
    exact ⟨start, rfl, .first (.operand htakes)⟩
  refine ⟨⟨_, hname, ?_, rfl⟩, ⟨_, hend, ?_, rfl⟩, ⟨_, hsign, ?_, rfl⟩⟩
  · obtain ⟨-, -, hplace, -⟩ := (place_of_overrun fullScope "(x").2 _ _ hname
    rcases hplace with ⟨-, hparse⟩ | ⟨hfault, -⟩
    · exact hparse
    · cases hfault
  · obtain ⟨-, -, hplace, -⟩ := (place_of_overrun fullScope "(").2 _ _ hend
    rcases hplace with ⟨-, hparse⟩ | ⟨hfault, -⟩
    · exact hparse
    · cases hfault
  · obtain ⟨-, -, hplace, -⟩ := (place_of_overrun fullScope "-x").2 _ _ hsign
    rcases hplace with ⟨hfault, -⟩ | ⟨-, token, ⟨⟩, hparse⟩
    · cases hfault
    · exact hparse

end Scope

end Formula
