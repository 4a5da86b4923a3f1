import Formula.Proofs.Limits
import Formula.Proofs.Tree.Reparsing

/-! # What the budget pays for

An expression takes a level of the budget for as long as it is being parsed, and so does the operand
of a prefix operator. So an operand costs as many levels as there are operators and parentheses before
it, whatever their order, and a sum costs one level more than one of its operands, since the right
operands are parsed one after the other.
-/

namespace Formula

/-! ## Operands -/

/-- A one behind prefix operators and parentheses, which are closed behind it. -/
def enclosedOne (word : List Char) : List Char :=
  word ++ '1' :: List.replicate (word.count '(') ')'

/-- Its tree. Parentheses leave no trace. -/
def Tree.enclosedOne : (word : List Char) → Tree
  | [] => .literal (.number (Decimal.nearest false 1 0))
  | c :: word =>
    match PrefixOp.ofSymbol? (String.singleton c) with
    | some op => .unary op (enclosedOne word)
    | none => enclosedOne word

/-- The word is made of what may stand before an operand. -/
def IsOpening (word : List Char) : Prop :=
  ∀ c ∈ word, c ∈ ['(', '+', '-', '!', '~']

/-- The operand as many times again, each behind a plus. -/
def addedUp (operand : List Char) : (times : Nat) → List Char
  | 0 => []
  | times + 1 => ' ' :: '+' :: ' ' :: operand ++ addedUp operand times

/-- The tree of a sum to which the operand is added as many times. -/
def Tree.addedUp (operand : Tree) : (times : Nat) → (left : Tree) → Tree
  | 0, left => left
  | times + 1, left => operand.addedUp times (.binary .add left operand)

variable {word rest : List Char}

theorem enclosedOne_paren (word : List Char) :
    enclosedOne ('(' :: word) = '(' :: enclosedOne word ++ [')'] := by
  simp [enclosedOne, List.replicate_succ']

theorem enclosedOne_of_ne_paren {c : Char} (hc : c ≠ '(') (word : List Char) :
    enclosedOne (c :: word) = c :: enclosedOne word := by
  simp [enclosedOne, List.count_cons_of_ne hc]

theorem Tree.enclosedOne_paren (word : List Char) :
    Tree.enclosedOne ('(' :: word) = Tree.enclosedOne word := rfl

theorem prefixOp_of_ne_paren {c : Char} (h : c ∈ ['(', '+', '-', '!', '~']) (hc : c ≠ '(') :
    ∃ op, PrefixOp.ofSymbol? (String.singleton c) = some op := by
  have hall : ∀ d ∈ ['(', '+', '-', '!', '~'],
      d ≠ '(' → (PrefixOp.ofSymbol? (String.singleton d)).isSome = true :=
    forall_mem_of_all (by decide)
  exact Option.isSome_iff_exists.mp (hall c h hc)

/-- No operator is spelled with an equals sign between a prefix operator and its operand. -/
theorem head_enclosedOne (hword : IsOpening word) :
    ∀ c ∈ (enclosedOne word ++ rest).head?, c ≠ '=' := by
  cases word with
  | nil =>
    rintro _ ⟨⟩
    decide
  | cons c word =>
    rintro _ ⟨⟩ rfl
    exact absurd (hword '=' List.mem_cons_self) (by decide)

/-- What stands behind an operand of a sum ends it. -/
theorem behind_addedUp (operand : List Char) (times : Nat) :
    Behind (InfixOp.add.precedence + 1) (addedUp operand times) := by
  have hop : InfixOp.ofSymbol? "+" = some .add := by decide
  cases times with
  | zero => exact .done
  | succ times => exact .operator hop (Nat.lt_succ_self _)

theorem le_length_addedUp (operand : List Char) (times : Nat) :
    times ≤ (addedUp operand times).length := by
  induction times with
  | zero => exact Nat.le_refl 0
  | succ times ih =>
    simp only [addedUp, List.length_cons, List.length_append]
    omega

/-- A sum is what joins its operands. -/
theorem toList_intercalate_plus (operand : List Char) (times : Nat) :
    (" + ".intercalate (List.replicate (times + 1) (String.ofList operand))).toList =
      operand ++ addedUp operand times := by
  rw [String.toList_intercalate]
  induction times with
  | zero => simp [addedUp]
  | succ times ih =>
    rw [List.replicate_succ, List.map_cons, List.replicate_succ, List.map_cons,
      List.intercalate_cons_cons, ← List.map_cons, ← List.replicate_succ, ih]
    simp [addedUp]

namespace Parser

variable {setting : Setting} {limit least levels : Nat} {s : State} {t : Tree} {cs : List Char}

/-! ## Costs -/

/-- A parser with a budget of that many levels reads the tree from the text before `rest`, and with
a smaller one fails at a limit. -/
def Costs (parser : Nat → Parser Tree) (levels : Nat) (cs rest : List Char) (t : Tree) : Prop :=
  ∀ n s, State.Faces s (cs ++ rest) →
    Meets (parser n) s (fun t' s' => levels ≤ n ∧ t' = t ∧ s'.Faces rest)
      fun e => n < levels ∧ e.IsLimit

/-- An expression of one operand costs a level more than the operand. -/
theorem Costs.expression (h : Costs (fun n => (stage setting n).operand) levels cs rest t)
    (hrest : Behind least rest) :
    Costs (fun n => (stage setting n).expression least) (levels + 1) cs rest t := by
  intro n s hs
  cases n with
  | zero => exact ⟨Nat.succ_pos levels, _, _, _, rfl, rfl⟩
  | succ n =>
    have hoperand : Meets (stage setting n).operand s
        (fun t' s' => levels ≤ n ∧ t' = t ∧ s'.Faces rest)
        fun e => n + 1 < levels + 1 ∧ e.IsLimit :=
      (h n s hs).mono (fun _ _ => id) fun _ he => ⟨Nat.succ_lt_succ he.1, he.2⟩
    refine meets_bind hoperand ?_
    rintro _ s' ⟨hle, rfl, hs'⟩
    exact meets_climb_of_behind hrest hs' ⟨Nat.succ_le_succ hle, rfl, hs'⟩

/-- Parentheses cost what the expression in them costs. -/
theorem Costs.parens {P : Option Token → Prop}
    (h : Costs (fun n => (stage setting n).expression 0) levels cs (')' :: rest) t)
    (hbegins : Begins (cs ++ ')' :: rest) P) (hrest : Behind limit rest) :
    Costs (fun n => (stage setting n).operand) levels ('(' :: cs ++ [')']) rest t := by
  intro n s hs
  have hopening : s.Faces (['('] ++ (cs ++ ')' :: rest)) := by simpa using hs
  obtain ⟨below, hstage⟩ := operand_stage setting n
  show Meets (stage setting n).operand s _ _
  rw [hstage]
  refine meets_operandOver_of_heads hopening (Scan.heads_opening _) hbegins nofun
    (fun _ => by decide) ?_
  intro position s' hs'
  refine meets_bind (h n s' hs') ?_
  rintro _ inner ⟨hle, rfl, hinner⟩
  exact meets_bind (meets_close_of_faces (Or.inl rfl) hrest hinner)
    fun _ outer houter => ⟨hle, rfl, houter⟩

/-- A prefix operator costs a level more than its operand. -/
theorem Costs.unary {op : PrefixOp} {symbol : String}
    (h : Costs (fun n => (stage setting n).operand) levels cs rest t)
    (hop : PrefixOp.ofSymbol? symbol = some op) (hhead : ∀ c ∈ (cs ++ rest).head?, c ≠ '=')
    (hbegins : Begins (cs ++ rest) (· ≠ none)) :
    Costs (fun n => (stage setting n).operand) (levels + 1) (symbol.toList ++ cs) rest
      (.unary op t) := by
  intro n s hs
  rw [List.append_assoc] at hs
  have hheads := heads_prefixOp hop hhead
  cases n with
  | zero =>
    show Meets (stage setting 0).operand s _ _
    rw [operand_stage_zero]
    refine meets_operandOver_of_prefix hop hheads hbegins hs ?_
    intro _ _
    exact ⟨Nat.succ_pos _, _, _, _, rfl, rfl⟩
  | succ n =>
    show Meets (stage setting (n + 1)).operand s _ _
    rw [operand_stage_succ]
    refine meets_operandOver_of_prefix hop hheads hbegins hs ?_
    intro s' hs'
    refine meets_map ((h n s' hs').mono ?_ ?_)
    · rintro _ s'' ⟨hle, rfl, hs''⟩
      exact ⟨Nat.succ_le_succ hle, rfl, hs''⟩
    · exact fun _ he => ⟨Nat.succ_lt_succ he.1, he.2⟩

/-- The operand begins with a token. -/
theorem begins_enclosedOne (hword : IsOpening word) (hrest : Behind limit rest) :
    Begins (enclosedOne word ++ rest) (· ≠ none) := by
  cases word with
  | nil =>
    have hone : Decimal.read? false ['1'] = some (Decimal.nearest false 1 0) := rfl
    exact begins_of_heads (Scan.heads_number hone hrest.not_isNumeric) (by simp)
  | cons c word =>
    by_cases hc : c = '('
    · subst hc
      rw [enclosedOne_paren, List.append_assoc, List.cons_append]
      exact begins_of_heads (Scan.heads_opening _) (by simp)
    · obtain ⟨op, hop⟩ := prefixOp_of_ne_paren (hword c List.mem_cons_self) hc
      have htail : IsOpening word := fun d hd => hword d (List.mem_cons_of_mem c hd)
      have hheads := heads_prefixOp hop (@head_enclosedOne word rest htail)
      rw [enclosedOne_of_ne_paren hc, List.cons_append]
      simpa using begins_of_heads hheads (by simp)

/-- An operand costs a level for each operator and each parenthesis before it. -/
theorem costs_enclosedOne (setting : Setting) (hword : IsOpening word)
    (hrest : Behind limit rest) :
    Costs (fun n => (stage setting n).operand) word.length (enclosedOne word) rest
      (Tree.enclosedOne word) := by
  -- on the word: the first of it leaves a budget of one level less to the others
  induction word generalizing limit rest with
  | nil =>
    intro n s hs
    obtain ⟨below, hstage⟩ := operand_stage setting n
    show Meets (stage setting n).operand s _ _
    rw [hstage]
    exact (meets_operandOver_of_spelled (.number rfl) hrest hs).mono
      (fun _ _ h => ⟨Nat.zero_le n, h⟩) fun _ => id
  | cons c word ih =>
    have htail : IsOpening word := fun d hd => hword d (List.mem_cons_of_mem c hd)
    by_cases hc : c = '('
    · subst hc
      have hclosing : Behind 0 ([] ++ ')' :: rest) := .closing (Or.inl rfl)
      rw [enclosedOne_paren, Tree.enclosedOne_paren]
      exact ((ih htail hclosing).expression hclosing).parens (begins_enclosedOne htail hclosing)
        hrest
    · obtain ⟨op, hop⟩ := prefixOp_of_ne_paren (hword c List.mem_cons_self) hc
      have htree : Tree.enclosedOne (c :: word) = .unary op (Tree.enclosedOne word) := by
        simp only [Tree.enclosedOne, hop]
      rw [enclosedOne_of_ne_paren hc, htree]
      simpa using (ih htail hrest).unary hop (head_enclosedOne htail)
        (begins_enclosedOne htail hrest)

/-- The right operands of a sum all cost what one of them costs. -/
theorem meets_climb_of_addedUp (hword : IsOpening word) {n times turns : Nat} {left : Tree}
    (hturns : times ≤ turns) (hs : s.Faces (addedUp (enclosedOne word) times)) :
    Meets (climb (stage setting n).expression 0 turns left) s
      (fun t s' => (0 < times → word.length + 1 ≤ n) ∧
        t = (Tree.enclosedOne word).addedUp times left ∧ s'.Faces [])
      fun e => (0 < times ∧ n < word.length + 1) ∧ e.IsLimit := by
  induction times generalizing s turns left with
  | zero => exact meets_climb_of_behind .done hs ⟨nofun, rfl, hs⟩
  | succ times ih =>
    obtain ⟨turns, rfl⟩ : ∃ k, turns = k + 1 := ⟨turns - 1, by omega⟩
    have hop : InfixOp.ofSymbol? "+" = some .add := by decide
    have hbehind := behind_addedUp (enclosedOne word) times
    have hright := (costs_enclosedOne setting hword hbehind).expression hbehind
    have hbegins := (begins_enclosedOne hword hbehind).behind_gap isGap_space
    obtain ⟨kind, hkind, hheads⟩ :=
      heads_infix hop (enclosedOne word ++ addedUp (enclosedOne word) times)
    have hplus : s.Faces ([' '] ++ ("+".toList ++ ' ' ::
        (enclosedOne word ++ addedUp (enclosedOne word) times))) := hs
    refine meets_climb_of_symbol hop hkind hheads hbegins (Nat.zero_le _)
      (hplus.of_gap isGap_space) ?_
    intro s' hs'
    refine (hright n s' (hs'.of_gap isGap_space)).mono ?_ ?_
    · rintro _ s'' ⟨hle, rfl, hs''⟩
      refine (ih (Nat.le_of_succ_le_succ hturns) hs'').mono ?_ ?_
      · exact fun _ _ h => ⟨fun _ => hle, h.2⟩
      · exact fun _ he => ⟨⟨Nat.succ_pos times, he.1.2⟩, he.2⟩
    · exact fun _ he => ⟨⟨Nat.succ_pos times, he.1⟩, he.2⟩

/-- A sum costs a level more than an operand, and one more for its right operands if it has any. -/
theorem costs_addedUp (hword : IsOpening word) {times : Nat} (hturns : times ≤ setting.turns) :
    Costs (fun n => (stage setting n).expression 0) (word.length + 1 + min times 1)
      (enclosedOne word ++ addedUp (enclosedOne word) times) []
      ((Tree.enclosedOne word).addedUp times (Tree.enclosedOne word)) := by
  intro n s hs
  rw [List.append_nil] at hs
  cases n with
  | zero => exact ⟨by omega, _, _, _, rfl, rfl⟩
  | succ n =>
    have hoperand := costs_enclosedOne setting hword (behind_addedUp (enclosedOne word) times)
    refine meets_bind ((hoperand n s hs).mono (fun _ _ => id) ?_) ?_
    · exact fun _ he => ⟨by omega, he.2⟩
    · rintro _ s' ⟨hle, rfl, hs'⟩
      refine (meets_climb_of_addedUp hword hturns hs').mono ?_ ?_
      · rintro _ s'' ⟨hright, rfl, hs''⟩
        exact ⟨by omega, rfl, hs''⟩
      · rintro e ⟨⟨htimes, hlt⟩, hlimit⟩
        exact ⟨by omega, hlimit⟩

/-- A text is parsed if its levels are left inside the groups around it. -/
theorem parse_of_costs {names : Names} {depth : Nat} {text : String}
    (hbegins : Begins text.toList (· ≠ none))
    (hcosts : Costs (fun n => (stage ⟨names, depth, text.length + 1⟩ n).expression 0) levels
      text.toList [] t) :
    (∀ t', names.parse depth text = .ok t' ↔ levels ≤ nestingLimit - depth ∧ t' = t) ∧
      ∀ e, names.parse depth text = .error e → e.IsLimit := by
  have hparse : Ends (names.parse depth text) (fun t' => levels ≤ nestingLimit - depth ∧ t' = t)
      fun e => nestingLimit - depth < levels ∧ e.IsLimit := by
    refine parse_meets_of_begins hbegins ?_
    intro s hs
    rw [← List.append_nil text.toList] at hs
    refine (hcosts _ s hs).mono ?_ fun _ => id
    rintro t' s' ⟨hle, rfl, hs'⟩
    exact ⟨⟨hle, rfl⟩, hs'.ahead_nil⟩
  cases hrun : names.parse depth text with
  | ok parsed =>
    rw [hrun] at hparse
    obtain ⟨hle, rfl⟩ := hparse
    refine ⟨fun t' => ⟨?_, ?_⟩, nofun⟩
    · rintro ⟨⟩
      exact ⟨hle, rfl⟩
    · rintro ⟨-, rfl⟩
      rfl
  | error e =>
    rw [hrun] at hparse
    obtain ⟨hlt, hlimit⟩ := hparse
    refine ⟨fun t' => ⟨nofun, ?_⟩, ?_⟩
    · rintro ⟨hle, -⟩
      exact absurd hlt (Nat.not_lt.mpr hle)
    · rintro _ ⟨⟩
      exact hlimit

/-- The levels of a sum are those of its first operand and of one of the others. -/
theorem parse_addedUp {names : Names} {depth times : Nat} {text : String} (hword : IsOpening word)
    (htext : text.toList = enclosedOne word ++ addedUp (enclosedOne word) times) :
    (∀ t, names.parse depth text = .ok t ↔ word.length + 1 + min times 1 ≤ nestingLimit - depth ∧
      t = (Tree.enclosedOne word).addedUp times (Tree.enclosedOne word)) ∧
      ∀ e, names.parse depth text = .error e → e.IsLimit := by
  have hturns : times ≤ text.length + 1 := by
    have hlength := le_length_addedUp (enclosedOne word) times
    rw [← String.length_toList, htext, List.length_append]
    omega
  refine parse_of_costs ?_ ?_
  · rw [htext]
    exact begins_enclosedOne hword (behind_addedUp _ times)
  · rw [htext]
    exact costs_addedUp hword hturns

end Parser

namespace Scope

variable {word : List Char}

/-- What stands before an operand costs a level each, in whatever order it stands there, and a level
goes into the expression. However many operands are added up, a sum costs one level more than one of
them. A text whose levels exceed what the groups around it leave is reported as too complex. -/
theorem parse_within_budget (scope : Scope) (hword : IsOpening word) :
    ((∀ t, scope.parse (String.ofList (enclosedOne word)) = .ok t ↔
        scope.depth + 1 + word.length ≤ 256 ∧ t = Tree.enclosedOne word) ∧
      ∀ e, scope.parse (String.ofList (enclosedOne word)) = .error e → e.IsTooComplex) ∧
    ∀ n, 1 ≤ n → ∀ text,
      text = " + ".intercalate (List.replicate (n + 1) (String.ofList (enclosedOne word))) →
        (∀ t, scope.parse text = .ok t ↔ scope.depth + 2 + word.length ≤ 256 ∧
          t = (Tree.enclosedOne word).addedUp n (Tree.enclosedOne word)) ∧
        ∀ e, scope.parse text = .error e → e.IsTooComplex := by
  constructor
  · have htext : (String.ofList (enclosedOne word)).toList =
        enclosedOne word ++ addedUp (enclosedOne word) 0 := by
      simp [addedUp]
    obtain ⟨hok, herror⟩ := Parser.parse_addedUp hword htext
    refine ⟨fun t => (hok t).trans (and_congr_left' ?_), fun e he => (herror e he).isTooComplex⟩
    simp only [nestingLimit]
    omega
  · rintro n hn _ rfl
    obtain ⟨hok, herror⟩ :=
      Parser.parse_addedUp hword (toList_intercalate_plus (enclosedOne word) n)
    refine ⟨fun t => (hok t).trans (and_congr_left' ?_), fun e he => (herror e he).isTooComplex⟩
    simp only [nestingLimit]
    omega

/-- A scope whose groups leave four levels. -/
def crampedScope : Scope where
  depth := 252

/-- Four levels are enough for a one behind a sign and two parentheses, but not for two of them
added up. -/
theorem parse_within_budget_cramped :
    IsOpening ['(', '-', '('] ∧
      crampedScope.parse "(-(1))" =
        .ok (.unary .negate (.literal (.number (Decimal.nearest false 1 0)))) ∧
      ∃ e, crampedScope.parse "(-(1)) + (-(1))" = .error e ∧ e.IsTooComplex := by
  have hword : IsOpening ['(', '-', '('] := forall_mem_of_all (by decide)
  obtain ⟨⟨hoperand, -⟩, hsum⟩ := crampedScope.parse_within_budget hword
  obtain ⟨hok, herror⟩ := hsum 1 (Nat.le_refl 1) "(-(1)) + (-(1))" (by decide)
  refine ⟨hword, (hoperand _).mpr ⟨by decide, rfl⟩, ?_⟩
  cases hrun : crampedScope.parse "(-(1)) + (-(1))" with
  | ok t => exact absurd ((hok t).mp hrun).1 (by decide)
  | error e => exact ⟨e, rfl, herror e hrun⟩

end Scope

end Formula
