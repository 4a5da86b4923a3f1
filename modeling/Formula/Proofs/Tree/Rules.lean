import Formula.Tree.Parser

/-! # Rules for parsers

What a parser does from a state is stated by what holds of its result and the state behind it, if it
succeeds, and of its error, if it fails. There is one rule for each way a parser is put together and
one for each thing it is put together from.
-/

namespace Formula.Parser

variable {α β : Type} {s : State}

/-! ## Outcomes -/

/-- A success satisfies `holds` and an error satisfies `failure`. -/
def Ends (x : Except Error α) (holds : α → Prop) (failure : Error → Prop) : Prop :=
  match x with
  | .ok a => holds a
  | .error e => failure e

@[simp]
theorem ends_ok {a : α} {holds : α → Prop} {failure : Error → Prop} :
    Ends (.ok a) holds failure ↔ holds a := Iff.rfl

@[simp]
theorem ends_error {e : Error} {holds : α → Prop} {failure : Error → Prop} :
    Ends (.error e) holds failure ↔ failure e := Iff.rfl

/-- From `s`, a success of the parser satisfies `post` and an error satisfies `failure`. -/
def Meets (x : Parser α) (s : State) (post : α → State → Prop) (failure : Error → Prop) : Prop :=
  Ends (x s) (fun result => post result.1 result.2) failure

variable {post : α → State → Prop} {failure : Error → Prop}

/-! ## Putting parsers together -/

/-- After a success the second half runs from the state reached. -/
theorem bind_of_ok {x : Parser α} {f : α → Parser β} {a : α} {s' : State} (h : x s = .ok (a, s')) :
    (x >>= f) s = f a s' := by
  simp [bind, StateT.bind, Except.bind, h]

/-- After a failure the second half does not run. -/
theorem bind_of_error {x : Parser α} {f : α → Parser β} {e : Error} (h : x s = .error e) :
    (x >>= f) s = .error e := by
  simp [bind, StateT.bind, Except.bind, h]

theorem meets_pure {a : α} (h : post a s) : Meets (pure a) s post failure := h

theorem meets_fail {fault : Fault} {offset length : Nat}
    (h : failure (.positioned fault offset length)) :
    Meets (fail fault offset length) s post failure := h

theorem meets_bind {x : Parser α} {f : α → Parser β} {after : β → State → Prop}
    (hx : Meets x s post failure) (hf : ∀ a s', post a s' → Meets (f a) s' after failure) :
    Meets (x >>= f) s after failure := by
  unfold Meets at hx ⊢
  cases hrun : x s with
  | error e =>
    rw [hrun] at hx
    rw [bind_of_error hrun]
    exact hx
  | ok result =>
    rw [hrun] at hx
    rw [bind_of_ok hrun]
    exact hf result.1 result.2 hx

theorem meets_map {x : Parser α} {f : α → β} {after : β → State → Prop}
    (hx : Meets x s (fun a s' => after (f a) s') failure) : Meets (f <$> x) s after failure := by
  rw [map_eq_pure_bind]
  exact meets_bind hx fun a s' ha => meets_pure ha

theorem Ends.mono {x : Except Error α} {holds holds' : α → Prop} {failure' : Error → Prop}
    (hx : Ends x holds failure) (hholds : ∀ a, holds a → holds' a)
    (hfailure : ∀ e, failure e → failure' e) : Ends x holds' failure' := by
  cases x with
  | error e => exact hfailure e hx
  | ok a => exact hholds a hx

theorem Meets.mono {x : Parser α} {post' : α → State → Prop} {failure' : Error → Prop}
    (hx : Meets x s post failure) (hpost : ∀ a s', post a s' → post' a s')
    (hfailure : ∀ e, failure e → failure' e) : Meets x s post' failure' :=
  Ends.mono hx (fun result => hpost result.1 result.2) hfailure

/-! ## Tokens -/

/-- The state reached by reading a token from `c`. -/
def State.From (s : State) (c : Cursor) : Prop :=
  c.next = (.ok s.ahead, s.cursor)

theorem State.From.unique {s' : State} {c : Cursor} (h : s.From c) (h' : s'.From c) : s = s' := by
  have hsame := h.symm.trans h'
  simp only [Prod.mk.injEq, Except.ok.injEq] at hsame
  obtain ⟨ahead, cursor⟩ := s
  obtain ⟨rfl, rfl⟩ := hsame
  rfl

theorem peek_bind (f : Option Token → Parser α) : (peek >>= f) s = f s.ahead s := rfl

theorem meets_peek {f : Option Token → Parser α} (h : Meets (f s.ahead) s post failure) :
    Meets (peek >>= f) s post failure := h

theorem meets_next {f : Option Token → Parser α}
    (hnext : ∀ s' : State, s'.From s.cursor → Meets (f s.ahead) s' post failure)
    (herror : ∀ e cursor, s.cursor.next = (.error e, cursor) → failure e) :
    Meets (next >>= f) s post failure := by
  have hstep : Meets next s (fun ahead s' => Meets (f ahead) s' post failure) failure := by
    unfold Meets next
    rcases hrun : s.cursor.next with ⟨outcome, cursor⟩
    cases outcome with
    | error e => exact herror e cursor hrun
    | ok token => exact hnext ⟨token, cursor⟩ hrun
  exact meets_bind hstep fun _ _ h => h

theorem meets_endOfText {wanted : Wanted}
    (h : failure (.positioned (.endOfText wanted) s.cursor.position 0)) :
    Meets (endOfText wanted) s post failure := h

/-! ## Operands -/

variable {setting : Setting} {inside : Parser Tree} {below : Option (Parser Tree)}
  {after : Tree → State → Prop}

theorem meets_group {opening : Char} {openedAt : Nat} {after : Group → State → Prop}
    (hdepth : groupLimit ≤ setting.depth →
      failure (.positioned (.tooManyGroups groupLimit) openedAt 1))
    (hopen : ∀ e c, s.cursor.takeGroup opening openedAt = (.error e, c) → failure e)
    (hclosed : setting.depth < groupLimit →
      ∀ text offset c, s.cursor.takeGroup opening openedAt = (.ok (text, offset), c) →
        (∀ e c', c.next = (.error e, c') → failure e) ∧
          ∀ s' : State, s'.From c → after ⟨text, offset⟩ s') :
    Meets (group setting opening openedAt) s after failure := by
  unfold Meets group
  split
  · exact hdepth ‹_›
  rename_i hroom
  rcases htake : s.cursor.takeGroup opening openedAt with ⟨outcome, c⟩
  cases outcome with
  | error e => exact hopen e c htake
  | ok taken =>
    rcases hclosed (Nat.not_le.mp hroom) taken.1 taken.2 c htake with ⟨herror, hafter⟩
    rcases hnext : c.next with ⟨ahead, c'⟩
    cases ahead with
    | error e =>
      simp only [hnext]
      exact herror e c' hnext
    | ok token =>
      simp only [hnext]
      exact hafter ⟨token, c'⟩ hnext

/-- The operand that begins with `token`, which has been taken. -/
def operandFrom (setting : Setting) (inside : Parser Tree) (token : Token) : Parser Tree :=
  match token.kind with
  | .number x => pure (.literal (.number x))
  | .string => pure (.literal (.text token.text))
  | .identifier => name setting token
  | .opening => do
    let tree ← inside
    close token.position
    pure tree
  | .operator | .closing | .separator =>
    fail (.unexpectedToken token.text) token.position token.length

theorem meets_nameAlone {token : Token}
    (hconstant : ∀ value, setting.names.constant? token.text = some value →
      after (.literal value) s)
    (hvariable : setting.names.isVariable token.text = true → after (.reference token.text) s)
    (hfunction : setting.names.isFunction token.text = true →
      failure (.positioned (.functionNotCalled token.text) token.position token.length))
    (hunknown : failure (.positioned (.unknownIdentifier token.text) token.position token.length)) :
    Meets (nameAlone setting token) s after failure := by
  unfold nameAlone
  split
  · exact meets_pure (hconstant _ ‹_›)
  split
  · exact meets_pure (hvariable ‹_›)
  split
  · exact meets_fail (hfunction ‹_›)
  · exact meets_fail hunknown

theorem meets_name {token : Token} (htruth : ∀ b, after (.literal (.bool b)) s)
    (hcall : ∀ opening, s.ahead = some opening → opening.isOpening "(" = true →
      setting.names.isFunction token.text = true →
        Meets (.call token.text <$> group setting '(' opening.position) s after failure)
    (halone : Meets (nameAlone setting token) s after failure) :
    Meets (name setting token) s after failure := by
  unfold name
  split
  · exact meets_pure (htruth true)
  split
  · exact meets_pure (htruth false)
  refine meets_peek ?_
  cases hahead : s.ahead with
  | none => exact halone
  | some opening =>
    show Meets (if (opening.isOpening "(" && setting.names.isFunction token.text) = true then _
      else _) s after failure
    split
    · rename_i hopening
      rw [Bool.and_eq_true] at hopening
      exact hcall opening hahead hopening.1 hopening.2
    · exact halone

theorem meets_close {openedAt : Nat} {after : Unit → State → Prop}
    (herror : ∀ e cursor, s.cursor.next = (.error e, cursor) → failure e)
    (hnone : s.ahead = none → failure (.positioned (.unmatched '(') openedAt 1))
    (hclosed : ∀ token (s' : State), s.ahead = some token → token.text = ")" →
      s'.From s.cursor → after () s')
    (hother : ∀ token, s.ahead = some token → token.text ≠ ")" →
      failure (.positioned (.notClosed token.text openedAt) token.position token.length)) :
    Meets (close openedAt) s after failure := by
  refine meets_next ?_ herror
  intro s' hs'
  cases hahead : s.ahead with
  | none => exact meets_fail (hnone hahead)
  | some token =>
    show Meets (if token.text = ")" then _ else _) s' after failure
    split
    · exact hclosed token s' hahead ‹_› hs'
    · exact meets_fail (hother token hahead ‹_›)

theorem meets_primary
    (hnone : s.ahead = none → failure (.positioned (.endOfText .expression) s.cursor.position 0))
    (hgroup : ∀ token, s.ahead = some token → token.isOpening "[" = true →
      Meets (.array <$> group setting '[' token.position) s after failure)
    (htoken : ∀ token, s.ahead = some token → token.isOpening "[" = false →
      Meets (next >>= fun _ => operandFrom setting inside token) s after failure) :
    Meets (primary setting inside) s after failure := by
  refine meets_peek ?_
  cases hahead : s.ahead with
  | none => exact meets_endOfText (hnone hahead)
  | some token =>
    show Meets (if token.isOpening "[" = true then _ else _) s after failure
    split
    · exact hgroup token hahead ‹_›
    · exact htoken token hahead (Bool.eq_false_iff.mpr ‹_›)

theorem meets_operandOver
    (hprimary : s.ahead.bind Token.prefixOp? = none →
      Meets (primary setting inside) s after failure)
    (hprefixed : ∀ op, s.ahead.bind Token.prefixOp? = some op →
      (∀ e cursor, s.cursor.next = (.error e, cursor) → failure e) ∧
        ∀ s' : State, s'.From s.cursor →
          (s'.ahead = none →
            failure (.positioned (.endOfText (.operandAfter op)) s'.cursor.position 0)) ∧
          (s'.ahead ≠ none →
            match below with
            | some operand => Meets (.unary op <$> operand) s' after failure
            | none => failure (.positioned .tooManyPrefixes s'.cursor.position 0))) :
    Meets (operandOver setting inside below) s after failure := by
  refine meets_peek ?_
  cases hop : s.ahead.bind Token.prefixOp? with
  | none => exact hprimary hop
  | some op =>
    rcases hprefixed op hop with ⟨herror, hstep⟩
    refine meets_next (fun s' hs' => meets_peek ?_) herror
    rcases hstep s' hs' with ⟨hend, hbelow⟩
    cases hahead : s'.ahead with
    | none => exact meets_endOfText (hend hahead)
    | some token =>
      have hbelow' := hbelow (by simp [hahead])
      cases below with
      | none => exact hbelow'
      | some operand => exact hbelow'

/-! ## Operators -/

variable {right : Nat → Parser Tree} {least turns : Nat} {left : Tree}

/-- The loop over the operators stops, or goes on with one more of them. -/
theorem meets_climb_succ
    (hstop : (∀ op, s.ahead.bind Token.infixOp? = some op → op.precedence < least) → after left s)
    (hgo : ∀ op, s.ahead.bind Token.infixOp? = some op → least ≤ op.precedence →
      (∀ e cursor, s.cursor.next = (.error e, cursor) → failure e) ∧
        ∀ s' : State, s'.From s.cursor →
          (s'.ahead = none → failure (.positioned (.endOfText .operand) s'.cursor.position 0)) ∧
          (s'.ahead ≠ none →
            Meets (right (op.precedence + 1)) s'
              (fun operand s'' =>
                Meets (climb right least turns (.binary op left operand)) s'' after failure)
              failure)) :
    Meets (climb right least (turns + 1) left) s after failure := by
  refine meets_peek ?_
  cases hop : s.ahead.bind Token.infixOp? with
  | none => exact hstop (by simp [hop])
  | some op =>
    show Meets (if op.precedence < least then _ else _) s after failure
    split
    · rename_i hlt
      refine hstop ?_
      intro op' hop'
      cases hop.symm.trans hop'
      exact hlt
    · rename_i hge
      rcases hgo op hop (by omega) with ⟨herror, hstep⟩
      refine meets_next (fun s' hs' => meets_peek ?_) herror
      rcases hstep s' hs' with ⟨hend, hright⟩
      cases hahead : s'.ahead with
      | none => exact meets_endOfText (hend hahead)
      | some token => exact meets_bind (hright (by simp [hahead])) fun _ _ h => h

/-! ## The budget -/

/-- With nothing left there is no operand behind a prefix operator. -/
theorem operand_stage_zero :
    (stage setting 0).operand = operandOver setting ((stage setting 0).expression 0) none := rfl

/-- The operand of a prefix operator is one within the budget below. -/
theorem operand_stage_succ (n : Nat) :
    (stage setting (n + 1)).operand =
      operandOver setting ((stage setting (n + 1)).expression 0) (some (stage setting n).operand) := rfl

/-- The operands of any budget are operands with prefix operators, and the parentheses in them hold
expressions of the same budget. -/
theorem operand_stage (setting : Setting) (n : Nat) :
    ∃ below, (stage setting n).operand =
      operandOver setting ((stage setting n).expression 0) below := by
  cases n with
  | zero => exact ⟨none, rfl⟩
  | succ n => exact ⟨some (stage setting n).operand, rfl⟩

/-- What holds of the parsers of operands and of expressions within every budget: it holds of a spent
budget, of operands whose parts have it, and of expressions whose parts have it. -/
theorem stage_induction {Operand : Parser Tree → Prop} {Expression : Nat → Parser Tree → Prop}
    (hdeep : ∀ level, Expression level tooDeep)
    (hoperand : ∀ inside below, Expression 0 inside →
      (∀ operand, below = some operand → Operand operand) →
        Operand (operandOver setting inside below))
    (hexpression : ∀ operand right level, Operand operand →
      (∀ level, Expression level (right level)) →
        Expression level (operand >>= climb right level setting.turns)) (n : Nat) :
    Operand (stage setting n).operand ∧
      ∀ level, Expression level ((stage setting n).expression level) := by
  induction n with
  | zero =>
    constructor
    · refine hoperand tooDeep none (hdeep 0) ?_
      intro operand hnone
      cases hnone
    · exact hdeep
  | succ n ih =>
    have hnext : ∀ level, Expression level ((stage setting (n + 1)).expression level) :=
      fun level => hexpression _ _ level ih.1 ih.2
    constructor
    · refine hoperand _ (some (stage setting n).operand) (hnext 0) ?_
      intro operand hsome
      cases hsome
      exact ih.1
    · exact hnext

/-! ## Whole texts -/

theorem meets_whole {budget : Nat}
    (h : Meets ((stage setting budget).expression 0) s
      (fun tree s' => (s'.ahead = none → after tree s') ∧
        ∀ token, s'.ahead = some token →
          failure (.positioned (.unexpectedToken token.text) token.position token.length)) failure) :
    Meets (whole setting budget) s after failure := by
  refine meets_bind h fun tree s' hs' => meets_peek ?_
  cases hahead : s'.ahead with
  | none => exact hs'.1 hahead
  | some token => exact meets_fail (hs'.2 token hahead)

/-- Parsing a text is parsing a whole expression from its first token. -/
theorem parse_eq_map_whole {names : Names} {depth : Nat} {text : String}
    (hs : s.From (Cursor.ofText text)) :
    names.parse depth text =
      (whole ⟨names, depth, text.length + 1⟩ (nestingLimit - depth) s).map (·.1) := by
  have hstart : start text = .ok s := by
    unfold start
    rw [hs]
  show (start text >>= fun s => (whole _ _).run' s) = _
  rw [hstart]
  rfl

/-- A text whose first token cannot be read is not parsed. -/
theorem parse_eq_error {names : Names} {depth : Nat} {text : String} {e : Error} {cursor : Cursor}
    (h : (Cursor.ofText text).next = (.error e, cursor)) : names.parse depth text = .error e := by
  have hstart : start text = .error e := by
    unfold start
    rw [h]
  show (start text >>= fun s => (whole _ _).run' s) = _
  rw [hstart]
  rfl

theorem parse_meets {names : Names} {depth : Nat} {text : String} {holds : Tree → Prop}
    (herror : ∀ e cursor, (Cursor.ofText text).next = (.error e, cursor) → failure e)
    (h : ∀ s : State, s.From (Cursor.ofText text) →
      Meets (whole ⟨names, depth, text.length + 1⟩ (nestingLimit - depth)) s
        (fun tree _ => holds tree) failure) :
    Ends (names.parse depth text) holds failure := by
  rcases hnext : (Cursor.ofText text).next with ⟨outcome, cursor⟩
  cases outcome with
  | error e =>
    rw [parse_eq_error hnext]
    exact herror e cursor hnext
  | ok token =>
    have hfrom : State.From ⟨token, cursor⟩ (Cursor.ofText text) := hnext
    have hwhole := h ⟨token, cursor⟩ hfrom
    unfold Meets at hwhole
    rw [parse_eq_map_whole hfrom]
    cases hrun : whole ⟨names, depth, text.length + 1⟩ (nestingLimit - depth) ⟨token, cursor⟩ with
    | error e =>
      rw [hrun] at hwhole
      exact hwhole
    | ok result =>
      rw [hrun] at hwhole
      exact hwhole

end Formula.Parser
