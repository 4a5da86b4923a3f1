import Formula.Proofs.Token.Cursor
import Formula.Proofs.Tree.Rules

/-! # Parsers side by side

Parsers that differ only in the names they know and in how much room they have read the same tokens,
so two runs of them can be compared state by state. The runs move in step: they fail with the same
error, or they reach the same state with trees that correspond. The first run may also get lost, which
it does at a parenthesis that the second reads as that of a call; an operand has just ended there, so
the first run can only fail. And it may be stopped by a limit, if it has less room than the second.
-/

namespace Formula.Parser

/-! ## Comparisons -/

/-- How two runs in `depth` groups are compared: which trees correspond, in which states the first run
is lost, and which of its errors say nothing about the second: all that have a place, once it is. -/
structure Comparison (depth : Nat) where
  Same : Tree → Tree → Prop
  Lost : State → Prop
  Excused : Error → Prop
  literal {value : Value} {t : Tree} (h : t = .literal value) : Same t t
  array (hdepth : depth < groupLimit) (group : Group) : Same (.array group) (.array group)
  unary (op : PrefixOp) {t t' : Tree} (h : Same t t') : Same (.unary op t) (.unary op t')
  binary (op : InfixOp) {left left' right right' : Tree} (hleft : Same left left')
    (hright : Same right right') : Same (.binary op left right) (.binary op left' right')
  /-- The first run is lost at a parenthesis only. -/
  stuck {s : State} (h : Lost s) : ∃ opening, s.ahead = some opening ∧ opening.isOpening "(" = true
  excused {s : State} (h : Lost s) (fault : Fault) (offset length : Nat) :
    Excused (.positioned fault offset length)

namespace Comparison

/-- A comparison of runs that are never lost and have the same errors. -/
def strict {depth : Nat} (Same : Tree → Tree → Prop)
    (literal : ∀ {value : Value} {t : Tree}, t = .literal value → Same t t)
    (array : depth < groupLimit → ∀ group : Group, Same (.array group) (.array group))
    (unary : ∀ (op : PrefixOp) {t t' : Tree}, Same t t' → Same (.unary op t) (.unary op t'))
    (binary : ∀ (op : InfixOp) {left left' right right' : Tree}, Same left left' →
      Same right right' → Same (.binary op left right) (.binary op left' right')) :
    Comparison depth where
  Same := Same
  Lost _ := False
  Excused _ := False
  literal := literal
  array := array
  unary := unary
  binary := binary
  stuck h := h.elim
  excused h _ _ _ := h.elim

variable {depth : Nat} (c : Comparison depth) {α : Type} {s : State}

/-- The errors of limits say nothing about the second run. -/
def ExcusesLimits : Prop :=
  ∀ (fault : Fault) (offset length : Nat), fault.isLimit = true →
    c.Excused (.positioned fault offset length)

/-- The second run has as much room as the first, or more, if the comparison excuses limits. -/
def Room (n n' : Nat) : Prop :=
  n = n' ∨ n ≤ n' ∧ c.ExcusesLimits

/-- From `s`, the runs of the two parsers move in step. -/
def InStep (x y : Parser Tree) (s : State) : Prop :=
  Meets x s (fun t s' => (∃ t', y s = .ok (t', s') ∧ c.Same t t') ∨ c.Lost s')
    fun e => y s = .error e ∨ c.Excused e

variable {c} {x y : Parser Tree}

theorem inStep_pure {t t' : Tree} (h : c.Same t t') : c.InStep (pure t) (pure t') s :=
  Or.inl ⟨t', rfl, h⟩

theorem inStep_fail {fault : Fault} {offset length : Nat} :
    c.InStep (fail fault offset length) (fail fault offset length) s :=
  Or.inl rfl

/-- A parser moves in step with itself if its trees correspond to themselves. -/
theorem inStep_self (h : Meets x s (fun t _ => c.Same t t) fun _ => True) : c.InStep x x s := by
  unfold InStep Meets at *
  cases hrun : x s with
  | error e => exact Or.inl rfl
  | ok result =>
    rw [hrun] at h
    exact Or.inl ⟨result.1, rfl, h⟩

/-- What both parsers begin with can be left out. -/
theorem inStep_seq {z : Parser α} {f g : α → Parser Tree}
    (h : ∀ a s', z s = .ok (a, s') → c.InStep (f a) (g a) s') :
    c.InStep (z >>= f) (z >>= g) s := by
  unfold InStep Meets
  cases hrun : z s with
  | error e =>
    rw [bind_of_error hrun, bind_of_error hrun]
    exact Or.inl rfl
  | ok result =>
    rw [bind_of_ok hrun, bind_of_ok hrun]
    exact h result.1 result.2 hrun

/-- A sequence moves in step if its halves do, and if the first run, once lost, stays so. -/
theorem inStep_bind {f g : Tree → Parser Tree} (hx : c.InStep x y s)
    (hsame : ∀ t t' s', c.Same t t' → c.InStep (f t) (g t') s')
    (hlost : ∀ t s', c.Lost s' → Meets (f t) s' (fun _ s'' => c.Lost s'') c.Excused) :
    c.InStep (x >>= f) (y >>= g) s := by
  unfold InStep Meets at hx ⊢
  cases hrun : x s with
  | error e =>
    rw [hrun] at hx
    rw [bind_of_error hrun]
    exact hx.imp_left bind_of_error
  | ok result =>
    obtain ⟨t, s'⟩ := result
    rw [hrun] at hx
    rw [bind_of_ok hrun]
    rcases hx with ⟨t', hy, ht⟩ | hs'
    · rw [bind_of_ok hy]
      exact hsame t t' s' ht
    · exact Ends.mono (hlost t s' hs') (fun _ h => Or.inr h) fun _ h => Or.inr h

theorem inStep_map {f g : Tree → Tree} (hx : c.InStep x y s)
    (hsame : ∀ t t', c.Same t t' → c.Same (f t) (g t')) : c.InStep (f <$> x) (g <$> y) s := by
  rw [map_eq_pure_bind, map_eq_pure_bind]
  exact inStep_bind hx (fun t t' _ ht => inStep_pure (hsame t t' ht)) fun t _ hs' => meets_pure hs'

/-! ## Lost runs -/

/-- Behind an operand at which the first run is lost, no parenthesis closes. -/
theorem meets_close_of_lost {openedAt : Nat} {post : Unit → State → Prop} (hs : c.Lost s) :
    Meets (close openedAt) s post c.Excused := by
  obtain ⟨opening, hahead, hopening⟩ := c.stuck hs
  refine meets_close ?_ (fun _ => c.excused hs _ _ _) ?_ fun _ _ _ => c.excused hs _ _ _
  · intro e cursor hnext
    obtain ⟨_, _, _, _, _, _, rfl, _⟩ := Cursor.faultsAt_of_next hnext
    exact c.excused hs _ _ _
  · intro token s' htoken htext _
    cases hahead.symm.trans htoken
    rw [Token.isOpening, htext] at hopening
    simp at hopening

/-- The loop over the operators does not go on at a parenthesis. -/
theorem meets_climb_of_lost {right : Nat → Parser Tree} {least rounds : Nat} {left : Tree}
    (hs : c.Lost s) : Meets (climb right least rounds left) s (fun _ s' => c.Lost s') c.Excused := by
  cases rounds with
  | zero => exact meets_pure hs
  | succ rounds =>
    refine meets_climb_succ (fun _ => hs) ?_
    intro op hop _
    obtain ⟨opening, hahead, hopening⟩ := c.stuck hs
    have hkind : opening.kind = .opening := by
      rw [Token.isOpening, Bool.and_eq_true] at hopening
      exact of_decide_eq_true hopening.1
    rw [hahead] at hop
    simp [Token.infixOp?, hkind] at hop

/-! ## Operands -/

section Names

variable {names names' : Names} {depth' turns : Nat} {inside inside' : Parser Tree}
  {below below' : Option (Parser Tree)}

/-- Where there is room for one more group, how deep it stands makes no difference. -/
theorem group_eq (h : depth < groupLimit) (h' : depth' < groupLimit) {opening : Char}
    {openedAt : Nat} :
    group ⟨names, depth, turns⟩ opening openedAt = group ⟨names', depth', turns⟩ opening openedAt := by
  funext s
  unfold group
  rw [if_neg (Nat.not_le.mpr h), if_neg (Nat.not_le.mpr h')]

/-- Groups are captured without regard to names. The first run stands as deep as the second, or
deeper. -/
theorem inStep_group (hdepth : c.Room depth' depth) {opening : Char} {openedAt : Nat}
    {f : Group → Tree} (hf : depth < groupLimit → ∀ found, c.Same (f found) (f found)) :
    c.InStep (f <$> group ⟨names, depth, turns⟩ opening openedAt)
      (f <$> group ⟨names', depth', turns⟩ opening openedAt) s := by
  have hself : c.InStep (f <$> group ⟨names, depth, turns⟩ opening openedAt)
      (f <$> group ⟨names, depth, turns⟩ opening openedAt) s := by
    refine inStep_self (meets_map (meets_group (fun _ => trivial) (fun _ _ _ => trivial) ?_))
    intro hroom text offset cursor _
    exact ⟨fun _ _ _ => trivial, fun _ _ => hf hroom _⟩
  rcases hdepth with rfl | ⟨hle, hlimits⟩
  · exact hself
  by_cases hroom : depth < groupLimit
  · rw [← group_eq hroom (Nat.lt_of_le_of_lt hle hroom)]
    exact hself
  · have hstopped : group ⟨names, depth, turns⟩ opening openedAt s =
        .error (.positioned (.tooManyGroups groupLimit) openedAt 1) :=
      if_pos (Nat.not_lt.mp hroom)
    unfold InStep Meets
    rw [map_eq_pure_bind, bind_of_error hstopped]
    exact Or.inr (hlimits _ _ _ rfl)

/-- Names move in step if they do by themselves. The second run may know more functions; the first is
lost where one of these is called. -/
theorem inStep_name {token : Token} (hdepth : c.Room depth' depth)
    (hcall : depth < groupLimit → ∀ found, c.Same (.call token.text found) (.call token.text found))
    (hfunction : names.isFunction token.text = true → names'.isFunction token.text = true)
    (hlost : ∀ opening, s.ahead = some opening → opening.isOpening "(" = true →
      names.isFunction token.text = false → names'.isFunction token.text = true → c.Lost s)
    (halone : c.InStep (nameAlone ⟨names, depth, turns⟩ token)
      (nameAlone ⟨names', depth', turns⟩ token) s) :
    c.InStep (name ⟨names, depth, turns⟩ token) (name ⟨names', depth', turns⟩ token) s := by
  unfold name
  by_cases htrue : Text.sameFolded token.text "true" = true
  · rw [if_pos htrue, if_pos htrue]
    exact inStep_pure (c.literal rfl)
  by_cases hfalse : Text.sameFolded token.text "false" = true
  · rw [if_neg htrue, if_neg htrue, if_pos hfalse, if_pos hfalse]
    exact inStep_pure (c.literal rfl)
  rw [if_neg htrue, if_neg htrue, if_neg hfalse, if_neg hfalse]
  unfold InStep
  refine meets_peek ?_
  rw [peek_bind]
  cases hahead : s.ahead with
  | none => exact halone
  | some opening =>
    show c.InStep
      (if (opening.isOpening "(" && names.isFunction token.text) = true then _ else _)
      (if (opening.isOpening "(" && names'.isFunction token.text) = true then _ else _) s
    by_cases hopening : opening.isOpening "(" = true
    · rw [hopening, Bool.true_and, Bool.true_and]
      by_cases hknown : names.isFunction token.text = true
      · rw [if_pos hknown, if_pos (hfunction hknown)]
        exact inStep_group hdepth hcall
      by_cases hnew : names'.isFunction token.text = true
      · -- the second run takes a group where the first goes on behind the name
        have hs := hlost opening hahead hopening (Bool.eq_false_iff.mpr hknown) hnew
        rw [if_neg hknown, if_pos hnew]
        have hstays : Meets (nameAlone ⟨names, depth, turns⟩ token) s (fun _ s' => c.Lost s')
            c.Excused :=
          meets_nameAlone (fun _ _ => hs) (fun _ => hs) (fun _ => c.excused hs _ _ _)
            (c.excused hs _ _ _)
        exact hstays.mono (fun _ _ h => Or.inr h) fun _ h => Or.inr h
      · rw [if_neg hknown, if_neg hnew]
        exact halone
    · rw [Bool.eq_false_iff.mpr hopening, Bool.false_and, Bool.false_and, if_neg Bool.false_ne_true,
        if_neg Bool.false_ne_true]
      exact halone

variable (hdepth : c.Room depth' depth)
  (hname : ∀ token s, c.InStep (name ⟨names, depth, turns⟩ token)
    (name ⟨names', depth', turns⟩ token) s)

include hdepth hname

theorem inStep_primary (hinside : ∀ s, c.InStep inside inside' s) :
    c.InStep (primary ⟨names, depth, turns⟩ inside) (primary ⟨names', depth', turns⟩ inside') s := by
  refine inStep_seq ?_
  intro ahead s' _
  cases ahead with
  | none => exact inStep_seq fun _ _ _ => inStep_fail
  | some token =>
    by_cases hopening : token.isOpening "[" = true
    · simp only [hopening, if_true]
      exact inStep_group hdepth c.array
    · simp only [hopening]
      refine inStep_seq ?_
      intro _ s'' _
      cases token.kind with
      | number x => exact inStep_pure (c.literal rfl)
      | string => exact inStep_pure (c.literal rfl)
      | identifier => exact hname token s''
      | opening =>
        refine inStep_bind (hinside s'') ?_ ?_
        · intro t t' _ ht
          exact inStep_seq fun _ _ _ => inStep_pure ht
        · intro t _ hlost
          exact meets_bind (meets_close_of_lost hlost) fun _ _ h => meets_pure h
      | operator | closing | separator => exact inStep_fail

/-- The budget of the first run may be spent where that of the second is not. -/
theorem inStep_operandOver (hinside : ∀ s, c.InStep inside inside' s)
    (hspent : below = none → below' = none ∨ c.ExcusesLimits)
    (hbelow : ∀ operand, below = some operand →
      ∃ operand', below' = some operand' ∧ ∀ s, c.InStep operand operand' s) :
    c.InStep (operandOver ⟨names, depth, turns⟩ inside below)
      (operandOver ⟨names', depth', turns⟩ inside' below') s := by
  refine inStep_seq ?_
  intro ahead s₁ _
  cases ahead.bind Token.prefixOp? with
  | none => exact inStep_primary hdepth hname hinside
  | some op =>
    refine inStep_seq fun _ s₂ _ => inStep_seq ?_
    intro behind s₃ _
    cases behind with
    | none => exact inStep_seq fun _ _ _ => inStep_fail
    | some token =>
      cases below with
      | none =>
        rcases hspent rfl with rfl | hlimits
        · exact inStep_seq fun _ _ _ => inStep_fail
        · exact Or.inr (hlimits _ _ _ rfl)
      | some operand =>
        obtain ⟨operand', rfl, hoperand⟩ := hbelow operand rfl
        exact inStep_map (hoperand s₃) fun _ _ => c.unary op

omit hdepth hname in
theorem inStep_climb {right right' : Nat → Parser Tree} {least rounds : Nat} {left left' : Tree}
    (hright : ∀ level s, c.InStep (right level) (right' level) s) (hleft : c.Same left left') :
    c.InStep (climb right least rounds left) (climb right' least rounds left') s := by
  -- on the turns that are left, for any two left operands that correspond
  induction rounds generalizing left left' s with
  | zero => exact inStep_pure hleft
  | succ rounds ih =>
    refine inStep_seq ?_
    intro ahead s₁ _
    cases ahead.bind Token.infixOp? with
    | none => exact inStep_pure hleft
    | some op =>
      by_cases hlt : op.precedence < least
      · simp only [hlt, if_true]
        exact inStep_pure hleft
      · simp only [hlt, if_false]
        refine inStep_seq fun _ s₂ _ => inStep_seq ?_
        intro behind s₃ _
        cases behind with
        | none => exact inStep_seq fun _ _ _ => inStep_fail
        | some token =>
          refine inStep_bind (hright _ s₃) ?_ fun _ _ hlost => meets_climb_of_lost hlost
          intro operand operand' _ hoperand
          exact ih (c.binary op hleft hoperand)

/-! ## The budget -/

omit hdepth hname in
/-- Where the budget of the first run is spent, so is that of the second, or the first is excused. -/
theorem inStep_tooDeep {n : Nat} (hbudget : c.Room 0 n) (least : Nat) :
    c.InStep tooDeep ((stage ⟨names', depth', turns⟩ n).expression least) s := by
  rcases hbudget with rfl | ⟨_, hlimits⟩
  · exact Or.inl rfl
  · exact Or.inr (hlimits _ _ _ rfl)

/-- Within any budget the parsers move in step if they do on names. -/
theorem inStep_stage {n n' : Nat} (hbudget : c.Room n n') :
    (∀ s, c.InStep (stage ⟨names, depth, turns⟩ n).operand
        (stage ⟨names', depth', turns⟩ n').operand s) ∧
      ∀ least s, c.InStep ((stage ⟨names, depth, turns⟩ n).expression least)
        ((stage ⟨names', depth', turns⟩ n').expression least) s := by
  induction n generalizing n' with
  | zero =>
    have hdeep : ∀ least s, c.InStep ((stage ⟨names, depth, turns⟩ 0).expression least)
        ((stage ⟨names', depth', turns⟩ n').expression least) s :=
      fun least _ => inStep_tooDeep hbudget least
    constructor
    · intro s
      rw [operand_stage_zero]
      cases n' with
      | zero =>
        rw [operand_stage_zero]
        exact inStep_operandOver hdepth hname (hdeep 0) (fun _ => Or.inl rfl) nofun
      | succ n' =>
        rw [operand_stage_succ]
        have hlimits : c.ExcusesLimits := hbudget.elim nofun (·.2)
        exact inStep_operandOver hdepth hname (hdeep 0) (fun _ => Or.inr hlimits) nofun
    · exact hdeep
  | succ n ih =>
    obtain ⟨n', rfl, hbelow⟩ : ∃ m, n' = m + 1 ∧ c.Room n m := by
      rcases hbudget with rfl | ⟨hle, hlimits⟩
      · exact ⟨n, rfl, Or.inl rfl⟩
      · exact ⟨n' - 1, by omega, Or.inr ⟨by omega, hlimits⟩⟩
    have hstage := ih hbelow
    have hexpression : ∀ least s, c.InStep ((stage ⟨names, depth, turns⟩ (n + 1)).expression least)
        ((stage ⟨names', depth', turns⟩ (n' + 1)).expression least) s := by
      intro least s
      refine inStep_bind (hstage.1 s) ?_ fun _ _ hlost => meets_climb_of_lost hlost
      intro left left' _ hleft
      exact inStep_climb hstage.2 hleft
    constructor
    · intro s
      rw [operand_stage_succ, operand_stage_succ]
      refine inStep_operandOver hdepth hname (hexpression 0) nofun ?_
      rintro _ ⟨⟩
      exact ⟨_, rfl, hstage.1⟩
    · exact hexpression

/-! ## Whole texts -/

/-- At the end of a whole text the first run is not lost. -/
theorem meets_whole_of_inStep {budget budget' : Nat} (hbudget : c.Room budget budget') :
    Meets (whole ⟨names, depth, turns⟩ budget) s
      (fun t s' => ∃ t', whole ⟨names', depth', turns⟩ budget' s = .ok (t', s') ∧ c.Same t t')
      fun e => whole ⟨names', depth', turns⟩ budget' s = .error e ∨ c.Excused e := by
  have hstep := (inStep_stage hdepth hname hbudget).2 0 s
  refine meets_whole ?_
  unfold InStep at hstep
  unfold Meets at hstep ⊢
  cases hrun : (stage ⟨names, depth, turns⟩ budget).expression 0 s with
  | error e =>
    rw [hrun] at hstep
    exact hstep.imp_left bind_of_error
  | ok result =>
    obtain ⟨t, s'⟩ := result
    rw [hrun] at hstep
    rcases hstep with ⟨t', hrun', ht⟩ | hlost
    · -- both have come to the same end
      unfold whole
      rw [bind_of_ok hrun', peek_bind]
      constructor
      · intro hahead
        rw [hahead]
        exact ⟨t', rfl, ht⟩
      · intro token hahead
        rw [hahead]
        exact Or.inl rfl
    · obtain ⟨opening, hahead, _⟩ := c.stuck hlost
      constructor
      · intro hnone
        cases hahead.symm.trans hnone
      · intro token _
        exact Or.inr (c.excused hlost _ _ _)

end Names

end Comparison

/-- The trees of a text correspond, or both parsers fail with one error, so far as the comparison does
not excuse the first. -/
theorem parse_inStep {depth depth' : Nat} (c : Comparison depth) {names names' : Names}
    (hdepth : c.Room depth' depth)
    (hname : ∀ turns token s, c.InStep (name ⟨names, depth, turns⟩ token)
      (name ⟨names', depth', turns⟩ token) s) (text : String) :
    Ends (names.parse depth text) (fun t => ∃ t', names'.parse depth' text = .ok t' ∧ c.Same t t')
      fun e => names'.parse depth' text = .error e ∨ c.Excused e := by
  have hbudget : c.Room (nestingLimit - depth) (nestingLimit - depth') := by
    rcases hdepth with rfl | ⟨hle, hlimits⟩
    · exact Or.inl rfl
    · exact Or.inr ⟨Nat.sub_le_sub_left hle _, hlimits⟩
  refine parse_meets ?_ ?_
  · intro e cursor hnext
    exact Or.inl (parse_eq_error hnext)
  · intro s hs
    have hwhole := c.meets_whole_of_inStep hdepth (hname (text.length + 1)) hbudget (s := s)
    rw [parse_eq_map_whole hs]
    refine hwhole.mono ?_ ?_
    · rintro t s' ⟨t', hrun, ht⟩
      exact ⟨t', by rw [hrun]; rfl, ht⟩
    · rintro e (hrun | hexcused)
      · left
        rw [hrun]
        rfl
      · exact Or.inr hexcused

end Formula.Parser
