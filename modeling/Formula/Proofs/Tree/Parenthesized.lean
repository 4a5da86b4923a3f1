import Formula.Proofs.Limits
import Formula.Proofs.Token.Front
import Formula.Proofs.Tree.Pairing

/-! # Parentheses

A text between parentheses is parsed as it is by itself, two groups deeper: its tokens and groups are
the same, with everything behind where the text begins, and the parenthesis that closes ends the
expression where the text ends. So an operator between two such texts has their trees for its
operands.
-/

namespace Formula

/-! ## Moved trees -/

/-- The group, in a text that has `distance` characters more before it. -/
def Group.moved (distance : Nat) (group : Group) : Group :=
  { group with offset := group.offset + distance }

/-- The tree, with all its groups behind so many more characters. -/
def Tree.moved (distance : Nat) : Tree → Tree
  | .literal value => .literal value
  | .reference name => .reference name
  | .unary op operand => .unary op (operand.moved distance)
  | .binary op left right => .binary op (left.moved distance) (right.moved distance)
  | .array group => .array (group.moved distance)
  | .call name group => .call name (group.moved distance)

/-- Trees with the same names, and with groups that have moved, are alike in nothing else. -/
theorem Tree.Alike.eq_moved {distance : Nat} {t t' : Tree}
    (h : t.Alike (· = ·) (fun group group' => group' = group.moved distance) t') :
    t' = t.moved distance := by
  induction h with
  | literal value => rfl
  | reference h => rw [h]; rfl
  | unary op _ ih => rw [ih]; rfl
  | binary op _ _ ihleft ihright => rw [ihleft, ihright]; rfl
  | array h => rw [h]; rfl
  | call hname hgroup => rw [hname, hgroup]; rfl

namespace Parser

/-! ## Inside parentheses -/

/-- The cursor on a text by itself, and where it stands between parentheses. -/
structure Enclosed (size distance : Nat) (rest : List Char) (c c' : Cursor) : Prop where
  rest_eq : c'.rest = c.rest ++ ')' :: rest
  position_eq : c'.position = c.position + distance
  size_eq : c.position + c.rest.length = size

theorem ends_closing (rest : List Char) : ∀ d ∈ (')' :: rest).head?, Scan.Ends d := by
  rintro _ ⟨⟩
  exact Scan.ends_of_delimiter (by simp)

namespace Enclosed

variable {size distance : Nat} {rest : List Char} {c c' c₁ : Cursor} {token : Token}

/-- A token of the text is one between parentheses. -/
theorem next_some (h : Enclosed size distance rest c c') (hnext : c.next = (.ok (some token), c₁)) :
    ∃ c₁', c'.next = (.ok (some { token with position := token.position + distance }), c₁') ∧
      Enclosed size distance rest c₁ c₁' := by
  obtain ⟨hrest, hposition, hsize⟩ := h
  have hc' : c' = ⟨c.rest ++ ')' :: rest, c.position + distance⟩ := by
    rw [← hrest, ← hposition]
  obtain ⟨piece, hpiece, hbehind, -⟩ := Cursor.passes_of_next hnext
  rw [hpiece, List.length_append] at hsize
  rw [hc', Cursor.next_append hnext (ends_closing rest)]
  exact ⟨_, rfl, rfl, rfl, by omega⟩

/-- Where the text ends the parenthesis closes. -/
theorem next_none (h : Enclosed size distance rest c c') (hnext : c.next = (.ok none, c₁)) :
    c'.next = (Cursor.mk (')' :: rest) (size + distance)).next := by
  obtain ⟨hrest, hposition, hsize⟩ := h
  have hc' : c' = ⟨c.rest ++ ')' :: rest, c.position + distance⟩ := by
    rw [← hrest, ← hposition]
  have hend : c.position + distance + c.rest.length = size + distance := by omega
  rw [hc', Cursor.next_blanks (Cursor.blank_of_next_none hnext), hend]

/-- A group of the text is one between parentheses. -/
theorem takeGroup {opening : Char} {openedAt offset : Nat} {text : String} {c₂ : Cursor}
    (h : Enclosed size distance rest c c')
    (htake : c.takeGroup opening openedAt = (.ok (text, offset), c₂)) (openedAt' : Nat) :
    ∃ c₂', c'.takeGroup opening openedAt' = (.ok (text, offset + distance), c₂') ∧
      Enclosed size distance rest c₂ c₂' := by
  obtain ⟨hrest, hposition, hsize⟩ := h
  obtain ⟨hclosed, hoffset, hbehind⟩ := Cursor.untilClosed_of_takeGroup htake
  obtain ⟨closing, hinside⟩ := Cursor.untilClosed_append hclosed
  have hclosed' := Cursor.untilClosed_append_of_some hclosed (')' :: rest)
  rw [← hrest] at hclosed'
  rw [hinside, List.length_append, List.length_cons] at hsize
  rw [Cursor.takeGroup_of_untilClosed hclosed', String.ofList_toList, hposition, ← hoffset]
  refine ⟨_, rfl, rfl, ?_, ?_⟩
  · show offset + distance + text.toList.length + 1 = c₂.position + distance
    omega
  · omega

end Enclosed

theorem infixOp?_of_closing {token : Token} (h : token.kind = .closing) : token.infixOp? = none := by
  simp [Token.infixOp?, h]

theorem isOpening_of_closing {token : Token} (h : token.kind = .closing) (delimiter : String) :
    token.isOpening delimiter = false := by
  simp [Token.isOpening, h]

/-- Compares the parser on a text with the parser on the same text between parentheses. -/
def Pairing.enclosed (names : Names) (size distance : Nat) (rest : List Char) : Pairing names where
  Strict := False
  SameName := (· = ·)
  SameGroup group group' := group' = group.moved distance
  Near := Enclosed size distance rest
  Ended token := token.kind = .closing
  indistinct := names.indistinct_eq
  loose h := ⟨not_false, infixOp?_of_closing h, isOpening_of_closing h "("⟩
  position_eq := False.elim
  next_ok := by
    intro c c' c₁ ahead h hnext
    cases ahead with
    | some token =>
      obtain ⟨c₁', hnext', h₁⟩ := h.next_some hnext
      exact ⟨_, c₁', hnext', .token ⟨rfl, rfl, fun _ => rfl, False.elim⟩, fun _ => h₁⟩
    | none =>
      have hnext' := h.next_none hnext
      have hclosing := Cursor.next_of_heads (Scan.heads_closing rest) (size + distance)
      exact ⟨_, _, hnext'.trans hclosing, .ended rfl,
        fun hread => hread.elim (absurd rfl) False.elim⟩
  next_error := False.elim
  takeGroup_ok := by
    intro c c' c₁ c₁' c₂ token token' opening openedAt offset text h hnext hnext' _ htake openedAt'
    obtain ⟨c₁'', hbehind, h₁⟩ := h.next_some hnext
    cases hnext'.symm.trans hbehind
    obtain ⟨c₂', htake', h₂⟩ := h₁.takeGroup htake openedAt'
    exact ⟨_, _, c₂', htake', rfl, h₂⟩
  takeGroup_error := False.elim

/-! ## Expressions -/

theorem whole_eq_ok {setting : Setting} {budget : Nat} {s s' : State} {t : Tree}
    (h : whole setting budget s = .ok (t, s')) :
    (stage setting budget).expression 0 s = .ok (t, s') ∧ s'.ahead = none := by
  unfold whole at h
  cases hrun : (stage setting budget).expression 0 s with
  | error e =>
    rw [bind_of_error hrun] at h
    cases h
  | ok result =>
    rw [bind_of_ok hrun, peek_bind] at h
    cases hahead : result.2.ahead with
    | none =>
      rw [hahead] at h
      cases h
      exact ⟨rfl, hahead⟩
    | some token =>
      rw [hahead] at h
      cases h

/-- The first token of a text that is parsed. -/
theorem from_of_parse {names : Names} {depth : Nat} {text : String} {tree : Tree}
    (h : names.parse depth text = .ok tree) : ∃ s : State, s.From (Cursor.ofText text) := by
  rcases hnext : (Cursor.ofText text).next with ⟨outcome, c⟩
  cases outcome with
  | error e => cases (parse_eq_error hnext).symm.trans h
  | ok ahead => exact ⟨⟨ahead, c⟩, hnext⟩

theorem map_eq_ok {α β : Type} {f : α → β} {outcome : Except Error α} {b : β}
    (h : outcome.map f = .ok b) : ∃ a, outcome = .ok a ∧ f a = b := by
  cases outcome with
  | error e => cases h
  | ok a => exact ⟨a, rfl, Except.ok.inj h⟩

/-- A text that is parsed inside two more groups is parsed so between parentheses. -/
theorem meets_expression_of_enclosed {names : Names} {depth turns budget position : Nat}
    {text : String} {tree : Tree} {rest : List Char} {s : State}
    (hparse : names.parse (depth + 2) text = .ok tree)
    (hbudget : nestingLimit - (depth + 2) ≤ budget) (hturns : text.length ≤ turns)
    (hs : s.From ⟨text.toList ++ ')' :: rest, position⟩) :
    Meets ((stage ⟨names, depth, turns⟩ budget).expression 0) s
      (fun t s' => t = tree.moved position ∧ s'.From ⟨')' :: rest, text.length + position⟩)
      fun _ => False := by
  -- the text by itself: its expression is the whole of it
  obtain ⟨s₀, hs₀⟩ := from_of_parse hparse
  rw [parse_eq_of_length_le hs₀ hturns] at hparse
  obtain ⟨⟨_, s₁⟩, hwhole, rfl⟩ := map_eq_ok hparse
  obtain ⟨hinner, hahead⟩ := whole_eq_ok hwhole
  -- further up nothing stops the parser that did not stop it there
  have hroom : (Comparison.limited (depth + 2)).Room depth (depth + 2) :=
    Or.inr ⟨Nat.le_add_right depth 2, Comparison.excusesLimits_limited _⟩
  have hlevels : (Comparison.limited (depth + 2)).Room (nestingLimit - (depth + 2)) budget :=
    Or.inr ⟨hbudget, Comparison.excusesLimits_limited _⟩
  have hstep := (Comparison.inStep_stage hroom
    (Comparison.inStep_name_limited names (Nat.le_add_right depth 2) turns) hlevels).2 0 s₀
  unfold Comparison.InStep Meets at hstep
  rw [hinner] at hstep
  obtain ⟨_, hupper, rfl⟩ := hstep.resolve_right id
  -- nor does it matter what stands around the text
  have hnear : Enclosed text.length position rest (Cursor.ofText text)
      ⟨text.toList ++ ')' :: rest, position⟩ :=
    ⟨rfl, (Nat.zero_add position).symm, (Nat.zero_add _).trans String.length_toList⟩
  have htogether : (Pairing.enclosed names text.length position rest).KeepsTogether
      ((stage ⟨names, depth, turns⟩ budget).expression 0) :=
    (Pairing.together_stage depth turns budget).2 0
  have hruns := htogether s₀ s ⟨_, _, hnear, hs₀, hs⟩
  unfold Pairing.Together Meets at hruns
  rw [hupper] at hruns
  obtain ⟨t', s₁', hrun, hsame, c, c', h₁, hfrom, hfrom'⟩ := hruns
  unfold Meets
  rw [hrun]
  refine ⟨hsame.eq_moved, ?_⟩
  rw [State.From, hahead] at hfrom
  rw [State.From, ← h₁.next_none hfrom]
  exact hfrom'

/-- Before the parenthesis that closes, a text that is parsed begins with a token that can be read. -/
theorem begins_of_parse {names : Names} {depth : Nat} {text : String} {tree : Tree}
    (h : names.parse depth text = .ok tree) (rest : List Char) :
    Begins (text.toList ++ ')' :: rest) fun _ => True := by
  intro position
  obtain ⟨s, hs⟩ := from_of_parse h
  have hnear : Enclosed text.length position rest (Cursor.ofText text)
      ⟨text.toList ++ ')' :: rest, position⟩ :=
    ⟨rfl, (Nat.zero_add position).symm, (Nat.zero_add _).trans String.length_toList⟩
  obtain ⟨ahead', c₁', hnext', -, -⟩ :=
    (Pairing.enclosed names text.length position rest).next_ok hnear hs
  exact ⟨ahead', c₁', hnext', trivial⟩

theorem meets_of_ok {α : Type} {x : Parser α} {s s' : State} {a : α} {post : α → State → Prop}
    {failure : Error → Prop} (h : x s = .ok (a, s')) (hpost : post a s') :
    Meets x s post failure := by
  unfold Meets
  rw [h]
  exact hpost

/-- So it is an operand, parentheses and all. -/
theorem meets_operand_of_enclosed {names : Names} {depth turns budget position : Nat}
    {text : String} {tree : Tree} {rest : List Char} {P : Option Token → Prop} {s : State}
    (hparse : names.parse (depth + 2) text = .ok tree)
    (hbudget : nestingLimit - (depth + 2) ≤ budget) (hturns : text.length ≤ turns)
    (hrest : Begins rest P) (hs : s.From ⟨'(' :: (text.toList ++ ')' :: rest), position⟩) :
    Meets (stage ⟨names, depth, turns⟩ budget).operand s
      (fun t s' => t = tree.moved (position + 1) ∧ s'.From ⟨rest, position + text.length + 2⟩)
      fun _ => False := by
  obtain ⟨below, hstage⟩ := operand_stage ⟨names, depth, turns⟩ budget
  rw [hstage]
  have hopening : s.From ⟨['('] ++ (text.toList ++ ')' :: rest), position⟩ := hs
  refine meets_operandOver_of_lexeme hopening (Scan.heads_opening _) (begins_of_parse hparse rest)
    nofun (fun _ => by decide) ?_
  intro s₁ hs₁
  refine meets_bind (meets_expression_of_enclosed hparse hbudget hturns hs₁) ?_
  rintro t s₂ ⟨rfl, hs₂⟩
  refine meets_bind (meets_close_of_closing hrest hs₂) ?_
  intro _ s₃ hs₃
  have hposition : text.length + (position + 1) + 1 = position + text.length + 2 := by omega
  refine meets_pure ⟨rfl, ?_⟩
  rw [← hposition]
  exact hs₃

/-- A spent budget parses nothing. -/
theorem lt_of_parse {names : Names} {depth : Nat} {text : String} {tree : Tree}
    (h : names.parse depth text = .ok tree) : depth < nestingLimit := by
  by_contra hspent
  obtain ⟨s, hs⟩ := from_of_parse h
  rw [parse_eq_map_whole hs, Nat.sub_eq_zero_of_le (Nat.not_lt.mp hspent)] at h
  cases h

/-- An operator between two texts in parentheses. -/
theorem parse_enclosed {names : Names} {depth : Nat} {text text' symbol : String} {op : InfixOp}
    {tree tree' : Tree} (hop : InfixOp.ofSymbol? symbol = some op)
    (h : names.parse (depth + 2) text = .ok tree) (h' : names.parse (depth + 2) text' = .ok tree') :
    names.parse depth ("(" ++ text ++ ") " ++ symbol ++ " (" ++ text' ++ ")") =
      .ok (.binary op (tree.moved 1) (tree'.moved (text.length + symbol.length + 5))) := by
  -- two levels are left for the texts, and one more on the left
  obtain ⟨budget, hbudget⟩ : ∃ budget, nestingLimit - depth = budget + 2 := by
    have hdepth := lt_of_parse h
    exact ⟨nestingLimit - (depth + 2), by omega⟩
  generalize hwhole : "(" ++ text ++ ") " ++ symbol ++ " (" ++ text' ++ ")" = whole
  let right := '(' :: (text'.toList ++ [')'])
  let middle := ' ' :: (symbol.toList ++ ' ' :: right)
  have hlist : whole.toList = '(' :: (text.toList ++ ')' :: middle) := by
    rw [← hwhole]
    simp [middle, right]
  have hlength : text.length ≤ whole.length + 1 ∧ text'.length ≤ whole.length + 1 := by
    rw [← hwhole]
    simp only [String.length_append]
    omega
  obtain ⟨kind, hkind, hheads⟩ := heads_infix hop right
  have hend : Begins [] fun _ => True := fun position =>
    ⟨none, _, Cursor.next_of_blank (by simp) position, trivial⟩
  have hright : Begins (' ' :: right) (· ≠ none) :=
    Begins.behind_gap isGap_space (begins_of_heads (Scan.heads_opening _) (by simp))
  have hmiddle : Begins middle (· ≠ none) :=
    Begins.behind_gap isGap_space (begins_of_heads hheads (by simp))
  have hparse : Ends (names.parse depth whole)
      (· = .binary op (tree.moved 1) (tree'.moved (text.length + symbol.length + 5)))
      fun _ => False := by
    refine parse_meets ?_ ?_
    · intro e cursor herror
      rw [Cursor.ofText, hlist] at herror
      cases herror.symm.trans (Cursor.next_of_heads (Scan.heads_opening _) 0)
    intro s hs
    rw [Cursor.ofText, hlist] at hs
    rw [hbudget]
    refine meets_whole (meets_bind
      (meets_operand_of_enclosed h (by omega) hlength.1 hmiddle hs) ?_)
    rintro _ s₁ ⟨rfl, hs₁⟩
    rw [State.From, Cursor.next_blank_cons (by decide)] at hs₁
    refine meets_climb_of_lexeme hop hkind hheads hright (Nat.zero_le _) hs₁ ?_
    intro s₂ hs₂
    rw [State.From, Cursor.next_blank_cons (by decide)] at hs₂
    refine meets_bind (meets_operand_of_enclosed h' (by omega) hlength.2 hend hs₂) ?_
    rintro _ s₃ ⟨rfl, hs₃⟩
    -- the text has ended
    have hnone : s₃.ahead = none := State.Faces.ahead_nil ⟨_, hs₃⟩
    have hplace : 0 + text.length + 2 + 1 + symbol.toList.length + 1 + 1 =
        text.length + symbol.length + 5 := by
      rw [String.length_toList]
      omega
    refine meets_of_ok (climb_of_none hnone) (meets_of_ok (climb_of_none hnone) ⟨?_, ?_⟩)
    · intro _
      rw [hplace]
    · intro token hahead
      cases hnone.symm.trans hahead
  cases hrun : names.parse depth whole with
  | ok t =>
    rw [hrun] at hparse
    exact congrArg Except.ok hparse
  | error e =>
    rw [hrun] at hparse
    exact hparse.elim

end Parser

/-- Texts that are parsed two groups deeper can be put into parentheses, on both sides of an operator,
without regard to what they are. Their trees become its operands, and only the places of the groups in
them change. -/
theorem Scope.parse_parenthesized {scope : Scope} {text text' symbol : String} {op : InfixOp}
    {tree tree' : Tree} (hop : InfixOp.ofSymbol? symbol = some op)
    (h : { scope with depth := scope.depth + 2 }.parse text = .ok tree)
    (h' : { scope with depth := scope.depth + 2 }.parse text' = .ok tree') :
    scope.parse ("(" ++ text ++ ") " ++ symbol ++ " (" ++ text' ++ ")") =
      .ok (.binary op (tree.moved 1) (tree'.moved (text.length + symbol.length + 5))) :=
  Parser.parse_enclosed hop h h'

theorem Scope.parse_parenthesized_or :
    InfixOp.ofSymbol? "oR" = some .or ∧
      { sumScope with depth := 2 }.parse "-[1]" = .ok (.unary .negate (.array ⟨"1", 2⟩)) ∧
      { sumScope with depth := 2 }.parse "true and sum (2)" =
        .ok (.binary .and (.literal (.bool true)) (.call "sum" ⟨"2", 14⟩)) ∧
      sumScope.parse "(-[1]) oR (true and sum (2))" =
        .ok (.binary .or (.unary .negate (.array ⟨"1", 3⟩))
          (.binary .and (.literal (.bool true)) (.call "sum" ⟨"2", 25⟩))) := by
  have hop : InfixOp.ofSymbol? "oR" = some .or := by decide
  have hleft : { sumScope with depth := 2 }.parse "-[1]" =
      .ok (.unary .negate (.array ⟨"1", 2⟩)) := by decide +kernel
  have hright : { sumScope with depth := 2 }.parse "true and sum (2)" =
      .ok (.binary .and (.literal (.bool true)) (.call "sum" ⟨"2", 14⟩)) := by decide +kernel
  have hparse := Scope.parse_parenthesized hop hleft hright
  have htext : "(" ++ "-[1]" ++ ") " ++ "oR" ++ " (" ++ "true and sum (2)" ++ ")" =
      "(-[1]) oR (true and sum (2))" := by decide
  have hdistance : "-[1]".length + "oR".length + 5 = 11 := by decide
  rw [htext, hdistance] at hparse
  exact ⟨hop, hleft, hright, hparse⟩

end Formula
