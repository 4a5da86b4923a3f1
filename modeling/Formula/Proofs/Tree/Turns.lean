import Formula.Proofs.Tree.Captures

/-! # Turns to spare

The loop over the operators takes a token at every turn, and no parser puts a token back. So a loop
with as many turns as there are characters left comes to its end by itself, and any more make no
difference.
-/

namespace Formula.Parser

variable {α β : Type} {s s' : State}

/-! ## What is left -/

/-- As many tokens as may be left at most: the one ahead, and one for each character behind it. -/
def State.remaining (s : State) : Nat :=
  s.cursor.rest.length + if s.ahead.isSome then 1 else 0

/-- A token takes a character at least. -/
theorem State.From.remaining_le {c : Cursor} (h : s.From c) : s.remaining ≤ c.rest.length := by
  obtain ⟨piece, hrest, -, hne⟩ := Cursor.passes_of_next h
  unfold State.remaining
  rw [hrest, List.length_append]
  split
  · have hpos := List.length_pos_iff.mpr (hne (Option.isSome_iff_ne_none.mp ‹_›))
    omega
  · omega

theorem State.ahead_eq_none (h : s.remaining ≤ 0) : s.ahead = none := by
  cases hahead : s.ahead with
  | none => rfl
  | some token => simp [remaining, hahead] at h

theorem State.From.remaining_lt (h : s'.From s.cursor) (hahead : s.ahead ≠ none) :
    s'.remaining < s.remaining := by
  have hle := h.remaining_le
  have hone : s.remaining = s.cursor.rest.length + 1 := by
    unfold State.remaining
    rw [if_pos (Option.isSome_iff_ne_none.mpr hahead)]
  omega

/-- From wherever there is at most `m` left, the parser leaves no more. -/
def Consumes (x : Parser α) : Prop :=
  ∀ {m : Nat} {s : State}, s.remaining ≤ m → Meets x s (fun _ s' => s'.remaining ≤ m) fun _ => True

variable {setting : Setting} {inside : Parser Tree} {below : Option (Parser Tree)}

theorem consumes_peek : Consumes peek := by
  intro m s hm
  exact hm

theorem consumes_next : Consumes next := by
  intro m s hm
  unfold Meets next
  rcases hrun : s.cursor.next with ⟨outcome, cursor⟩
  cases outcome with
  | error e => trivial
  | ok token =>
    have hs' : State.From ⟨token, cursor⟩ s.cursor := hrun
    have hle := hs'.remaining_le
    unfold State.remaining at hm
    show State.remaining ⟨token, cursor⟩ ≤ m
    omega

theorem consumes_group {opening : Char} (hopening : opening = '[' ∨ opening = '(')
    {openedAt : Nat} : Consumes (group setting opening openedAt) := by
  intro m s hm
  refine meets_group (fun _ => trivial) (fun _ _ _ => trivial) ?_
  intro _ text offset c htake
  refine ⟨fun _ _ _ => trivial, ?_⟩
  intro s' hs'
  obtain ⟨hclosed, -, -⟩ := Cursor.untilClosed_of_takeGroup htake
  obtain ⟨closing, -, hrest, -⟩ :=
    Cursor.closes_of_untilClosed hopening (Nesting.depth_top _) hclosed
  have hle := hs'.remaining_le
  have hlength := congrArg List.length hrest
  rw [List.length_append, List.length_cons] at hlength
  unfold State.remaining at hm
  omega

theorem consumes_name {token : Token} : Consumes (name setting token) := by
  intro m s hm
  refine meets_name (fun _ => hm) (fun _ _ _ _ => meets_map (consumes_group (.inr rfl) hm)) ?_
  exact meets_nameAlone (fun _ _ => hm) (fun _ => hm) (fun _ => trivial) trivial

theorem consumes_close {openedAt : Nat} : Consumes (close openedAt) := by
  intro m s hm
  refine meets_close (fun _ _ _ => trivial) (fun _ => trivial) ?_ (fun _ _ _ => trivial)
  intro token s' hahead _ hs'
  have hlt := hs'.remaining_lt (by simp [hahead])
  omega

theorem consumes_primary (hinside : Consumes inside) : Consumes (primary setting inside) := by
  intro m s hm
  refine meets_primary (fun _ => trivial) ?_ ?_
  · intro token _ _
    exact meets_map (consumes_group (.inl rfl) hm)
  · intro token hahead _
    refine meets_next ?_ (fun _ _ _ => trivial)
    intro s' hs'
    have hlt := hs'.remaining_lt (by simp [hahead])
    have hle : s'.remaining ≤ m := by omega
    unfold operandFrom
    split
    -- a number, a string, a name, a parenthesis, and what begins no operand
    · exact meets_pure hle
    · exact meets_pure hle
    · exact consumes_name hle
    · exact meets_bind (hinside hle) fun _ _ hle =>
        meets_bind (consumes_close hle) fun _ _ hle => meets_pure hle
    all_goals exact meets_fail trivial

theorem consumes_operandOver (hinside : Consumes inside)
    (hbelow : ∀ operand, below = some operand → Consumes operand) :
    Consumes (operandOver setting inside below) := by
  intro m s hm
  refine meets_operandOver (fun _ => consumes_primary hinside hm) ?_
  intro op hop
  refine ⟨fun _ _ _ => trivial, ?_⟩
  intro s' hs'
  refine ⟨fun _ => trivial, fun _ => ?_⟩
  have hlt := hs'.remaining_lt (by rintro hnone; rw [hnone] at hop; cases hop)
  cases below with
  | none => trivial
  | some operand => exact meets_map (hbelow operand rfl (by omega))

/-- The next operator is behind fewer tokens. -/
theorem State.From.remaining_lt_of_infixOp? {op : InfixOp} (h : s'.From s.cursor)
    (hop : s.ahead.bind Token.infixOp? = some op) : s'.remaining < s.remaining := by
  refine h.remaining_lt ?_
  rintro hnone
  rw [hnone] at hop
  cases hop

theorem consumes_climb {right : Nat → Parser Tree} {least turns : Nat} {left : Tree}
    (hright : ∀ level, Consumes (right level)) : Consumes (climb right least turns left) := by
  intro m s hm
  -- on the turns that are left
  induction turns generalizing left s with
  | zero => exact meets_pure hm
  | succ turns ih =>
    refine meets_climb_succ (fun _ => hm) ?_
    intro op hop _
    refine ⟨fun _ _ _ => trivial, ?_⟩
    intro s' hs'
    have hlt := hs'.remaining_lt_of_infixOp? hop
    have hle : s'.remaining ≤ m := by omega
    exact ⟨fun _ => trivial, fun _ => (hright _ hle).mono (fun _ _ hle => ih hle) fun _ he => he⟩

theorem consumes_stage (n : Nat) :
    Consumes (stage setting n).operand ∧ ∀ level, Consumes ((stage setting n).expression level) := by
  refine @stage_induction setting Consumes (fun _ => Consumes) ?_ ?_ ?_ n
  · intro _ m s _
    exact meets_peek (meets_fail trivial)
  · intro inside below hinside hbelow
    exact consumes_operandOver hinside hbelow
  · intro operand right level hoperand hright m s hm
    exact meets_bind (hoperand hm) fun _ _ hle => consumes_climb hright hle

/-! ## Agreement -/

/-- The parsers do the same wherever there is at most `m` left. -/
def AgreeWithin (m : Nat) (x y : Parser α) : Prop :=
  ∀ s : State, s.remaining ≤ m → x s = y s

variable {m : Nat} {x y : Parser α}

theorem AgreeWithin.bind {f g : α → Parser β} (hx : AgreeWithin m x y) (hconsumes : Consumes x)
    (hf : ∀ a, AgreeWithin m (f a) (g a)) : AgreeWithin m (x >>= f) (y >>= g) := by
  intro s hs
  have hxy := hx s hs
  have hleft := hconsumes hs
  unfold Meets at hleft
  cases hrun : x s with
  | error e =>
    rw [bind_of_error hrun, bind_of_error (hxy ▸ hrun)]
  | ok result =>
    rw [hrun] at hleft
    rw [bind_of_ok hrun, bind_of_ok (hxy ▸ hrun)]
    exact hf result.1 result.2 hleft

theorem AgreeWithin.map (f : α → β) (hx : AgreeWithin m x y) : AgreeWithin m (f <$> x) (f <$> y) := by
  intro s hs
  rw [map_eq_pure_bind, map_eq_pure_bind]
  have hxy := hx s hs
  cases hrun : x s with
  | error e => rw [bind_of_error hrun, bind_of_error (hxy ▸ hrun)]
  | ok result => rw [bind_of_ok hrun, bind_of_ok (hxy ▸ hrun)]

/-- What is done behind a token that has been taken is done from where it has led. -/
theorem next_bind_congr {f g : Option Token → Parser α}
    (h : ∀ s' : State, s'.From s.cursor → f s.ahead s' = g s.ahead s') :
    (next >>= f) s = (next >>= g) s := by
  rcases hnext : s.cursor.next with ⟨outcome, cursor⟩
  cases outcome with
  | error e =>
    have hrun : next s = .error e := by simp only [next, hnext]
    rw [bind_of_error hrun, bind_of_error hrun]
  | ok token =>
    have hrun : next s = .ok (s.ahead, ⟨token, cursor⟩) := by simp only [next, hnext]
    rw [bind_of_ok hrun, bind_of_ok hrun]
    exact h ⟨token, cursor⟩ hnext

section Stage

variable {names : Names} {depth turns turns' : Nat} {inside inside' : Parser Tree}
  {below below' : Option (Parser Tree)}

theorem agree_primary (hconsumes : Consumes inside) (hinside : AgreeWithin m inside inside') :
    AgreeWithin m (primary ⟨names, depth, turns⟩ inside)
      (primary ⟨names, depth, turns'⟩ inside') := by
  refine AgreeWithin.bind (fun _ _ => rfl) consumes_peek ?_
  intro ahead
  cases ahead with
  | none => exact fun _ _ => rfl
  | some token =>
    by_cases hopening : token.isOpening "[" = true
    · simp only [hopening, if_true]
      exact fun _ _ => rfl
    · simp only [hopening]
      refine AgreeWithin.bind (fun _ _ => rfl) consumes_next ?_
      intro _
      cases token.kind with
      | opening => exact hinside.bind hconsumes fun _ _ _ => rfl
      | number x => exact fun _ _ => rfl
      | string | identifier | operator | closing | separator => exact fun _ _ => rfl

theorem agree_operandOver (hconsumes : Consumes inside) (hinside : AgreeWithin m inside inside')
    (hbelow : below = none ↔ below' = none)
    (hoperand : ∀ operand operand', below = some operand → below' = some operand' →
      AgreeWithin m operand operand') :
    AgreeWithin m (operandOver ⟨names, depth, turns⟩ inside below)
      (operandOver ⟨names, depth, turns'⟩ inside' below') := by
  refine AgreeWithin.bind (fun _ _ => rfl) consumes_peek ?_
  intro ahead
  cases ahead.bind Token.prefixOp? with
  | none => exact agree_primary hconsumes hinside
  | some op =>
    refine AgreeWithin.bind (fun _ _ => rfl) consumes_next fun _ =>
      AgreeWithin.bind (fun _ _ => rfl) consumes_peek ?_
    intro behind
    cases behind with
    | none => exact fun _ _ => rfl
    | some token =>
      cases below with
      | none =>
        rw [hbelow.mp rfl]
        exact fun _ _ => rfl
      | some operand =>
        cases below' with
        | none => cases hbelow.mpr rfl
        | some operand' => exact (hoperand operand operand' rfl rfl).map (Tree.unary op)

/-- Without a token ahead the loop has come to its end. -/
theorem climb_of_none {right : Nat → Parser Tree} {least turns : Nat} {left : Tree}
    (h : s.ahead = none) : climb right least turns left s = .ok (left, s) := by
  cases turns with
  | zero => rfl
  | succ turns =>
    show (peek >>= _) s = _
    rw [peek_bind, h]
    rfl

/-- The loops end by themselves, if they have as many turns as there may be tokens. -/
theorem agree_climb {k least : Nat} {right right' : Nat → Parser Tree} {left : Tree}
    (hconsumes : ∀ level, Consumes (right level))
    (hright : ∀ level, AgreeWithin m (right level) (right' level)) (hm : k ≤ m)
    (hturns : k ≤ turns) (hturns' : k ≤ turns') :
    AgreeWithin k (climb right least turns left) (climb right' least turns' left) := by
  -- on the turns of the first loop: a turn of both leaves a token less
  induction turns generalizing k turns' left with
  | zero =>
    intro s hs
    have hnone := State.ahead_eq_none (Nat.le_trans hs hturns)
    rw [climb_of_none hnone, climb_of_none hnone]
  | succ turns ih =>
    intro s hs
    cases turns' with
    | zero =>
      have hnone := State.ahead_eq_none (Nat.le_trans hs hturns')
      rw [climb_of_none hnone, climb_of_none hnone]
    | succ turns' =>
      show (peek >>= _) s = (peek >>= _) s
      rw [peek_bind, peek_bind]
      cases hop : s.ahead.bind Token.infixOp? with
      | none => rfl
      | some op =>
        by_cases hlt : op.precedence < least
        · simp only [hlt, if_true]
        · simp only [hlt, if_false]
          refine next_bind_congr ?_
          intro s' hs'
          have hfewer := hs'.remaining_lt_of_infixOp? hop
          rw [peek_bind, peek_bind]
          cases s'.ahead.isNone with
          | true => rfl
          | false =>
            refine AgreeWithin.bind (fun s₁ hs₁ => hright _ s₁ ?_) (hconsumes _) ?_ s' (Nat.le_refl _)
            · omega
            · intro operand
              exact ih (by omega) (by omega) (by omega)

theorem agree_stage {m turns turns' : Nat} (hturns : m ≤ turns) (hturns' : m ≤ turns') (n : Nat) :
    AgreeWithin m (stage ⟨names, depth, turns⟩ n).operand (stage ⟨names, depth, turns'⟩ n).operand ∧
      ∀ level, AgreeWithin m ((stage ⟨names, depth, turns⟩ n).expression level)
        ((stage ⟨names, depth, turns'⟩ n).expression level) := by
  induction n with
  | zero =>
    constructor
    · rw [operand_stage_zero, operand_stage_zero]
      exact agree_operandOver ((consumes_stage 0).2 0) (fun _ _ => rfl) Iff.rfl fun _ _ => nofun
    · exact fun _ _ _ => rfl
  | succ n ih =>
    have hconsumes := @consumes_stage ⟨names, depth, turns⟩
    have hexpression : ∀ level, AgreeWithin m ((stage ⟨names, depth, turns⟩ (n + 1)).expression level)
        ((stage ⟨names, depth, turns'⟩ (n + 1)).expression level) := by
      intro level
      refine ih.1.bind (hconsumes n).1 ?_
      intro left
      exact agree_climb (hconsumes n).2 ih.2 (Nat.le_refl m) hturns hturns'
    constructor
    · rw [operand_stage_succ, operand_stage_succ]
      refine agree_operandOver ((hconsumes (n + 1)).2 0) (hexpression 0) (by simp) ?_
      rintro _ _ ⟨⟩ ⟨⟩
      exact ih.1
    · exact hexpression

end Stage

/-! ## Whole texts -/

theorem agree_whole {names : Names} {depth m turns turns' budget : Nat} (hturns : m ≤ turns)
    (hturns' : m ≤ turns') :
    AgreeWithin m (whole ⟨names, depth, turns⟩ budget) (whole ⟨names, depth, turns'⟩ budget) :=
  ((agree_stage hturns hturns' budget).2 0).bind ((consumes_stage budget).2 0) fun _ _ _ => rfl

/-- A text is parsed as it is with any number of turns, if there are enough of them. -/
theorem parse_eq_of_length_le {names : Names} {depth turns : Nat} {text : String}
    (hs : s.From (Cursor.ofText text)) (hturns : text.length ≤ turns) :
    names.parse depth text =
      (whole ⟨names, depth, turns⟩ (nestingLimit - depth) s).map (·.1) := by
  have hremaining : s.remaining ≤ text.length := by
    have hle := hs.remaining_le
    rw [← String.length_toList]
    exact hle
  rw [parse_eq_map_whole hs, agree_whole (Nat.le_succ _) hturns s hremaining]

end Formula.Parser
