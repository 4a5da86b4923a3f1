import Formula.Proofs.Text.Folding
import Formula.Proofs.Tree.Turns

/-! # Parsers on two texts

A parser is run on two texts that are alike. The runs keep together if their cursors do: if cursors
that are near each other find tokens that are alike, capture groups that are the same for the purpose
at hand, and are near each other behind them. Then the trees of the two texts correspond. The second
text may go on where the first ends, and how the first run fails need not matter.
-/

namespace Formula

/-! ## Tokens and trees -/

/-- The tokens are alike: of one kind, with names that are the same for the purpose at hand, and at
the same place if that matters. -/
structure Token.Alike (SameName : String → String → Prop) (Strict : Prop) (token token' : Token) :
    Prop where
  kind_eq : token.kind = token'.kind
  name : SameName token.text token'.text
  text_eq : token.kind = .string → token.text = token'.text
  place_eq : Strict → token.position = token'.position ∧ token.length = token'.length

/-- What the cursors have found: tokens that are alike, the end of both texts, or the end of the first
and something else that ends the second expression. -/
inductive Token.Ahead (SameName : String → String → Prop) (Strict : Prop) (Ended : Token → Prop) :
    Option Token → Option Token → Prop where
  | token {token token' : Token} (h : token.Alike SameName Strict token') :
      Ahead SameName Strict Ended (some token) (some token')
  | none : Ahead SameName Strict Ended none none
  | ended {token' : Token} (h : Ended token') : Ahead SameName Strict Ended none (some token')

/-- The trees have one shape and the same literals, and their names and groups correspond. -/
inductive Tree.Alike (SameName : String → String → Prop) (SameGroup : Group → Group → Prop) :
    Tree → Tree → Prop where
  | literal (value : Value) : Alike SameName SameGroup (.literal value) (.literal value)
  | reference {name name' : String} (h : SameName name name') :
      Alike SameName SameGroup (.reference name) (.reference name')
  | unary (op : PrefixOp) {tree tree' : Tree} (h : Alike SameName SameGroup tree tree') :
      Alike SameName SameGroup (.unary op tree) (.unary op tree')
  | binary (op : InfixOp) {left left' right right' : Tree}
      (hleft : Alike SameName SameGroup left left')
      (hright : Alike SameName SameGroup right right') :
      Alike SameName SameGroup (.binary op left right) (.binary op left' right')
  | array {group group' : Group} (h : SameGroup group group') :
      Alike SameName SameGroup (.array group) (.array group')
  | call {name name' : String} {group group' : Group} (hname : SameName name name')
      (hgroup : SameGroup group group') :
      Alike SameName SameGroup (.call name group) (.call name' group')

/-- Names that are the same for the purpose at hand are so for the parser: they are spelled alike, up
to case, and stand for the same. -/
structure Names.Indistinct (names : Names) (SameName : String → String → Prop) : Prop where
  fold_eq {a b : String} (h : SameName a b) : Text.fold a = Text.fold b
  constant?_eq {a b : String} (h : SameName a b) : names.constant? a = names.constant? b
  isVariable_eq {a b : String} (h : SameName a b) : names.isVariable a = names.isVariable b
  isFunction_eq {a b : String} (h : SameName a b) : names.isFunction a = names.isFunction b

/-- Names that are equal are so for every purpose. -/
theorem Names.indistinct_eq (names : Names) : names.Indistinct (· = ·) where
  fold_eq := congrArg Text.fold
  constant?_eq := congrArg names.constant?
  isVariable_eq := congrArg names.isVariable
  isFunction_eq := congrArg names.isFunction

namespace Parser

/-! ## Pairings -/

/-- Which cursors on two texts are near each other, and what that says of the tokens and groups they
find. If the pairing is strict, the errors of the two runs are compared, and with them the places. -/
structure Pairing (names : Names) where
  Strict : Prop
  SameName : String → String → Prop
  SameGroup : Group → Group → Prop
  Near : Cursor → Cursor → Prop
  /-- The token may stand in the second text where the first ends. -/
  Ended : Token → Prop
  indistinct : names.Indistinct SameName
  loose {token : Token} (h : Ended token) :
    ¬ Strict ∧ token.infixOp? = none ∧ token.isOpening "(" = false
  position_eq {c c' : Cursor} (hstrict : Strict) (h : Near c c') : c.position = c'.position
  next_ok {c c' c₁ : Cursor} {ahead : Option Token} (h : Near c c')
    (hnext : c.next = (.ok ahead, c₁)) :
    ∃ ahead' c₁', c'.next = (.ok ahead', c₁') ∧ Token.Ahead SameName Strict Ended ahead ahead' ∧
      (ahead ≠ none ∨ Strict → Near c₁ c₁')
  next_error {c c' c₁ : Cursor} {e : Error} (hstrict : Strict) (h : Near c c')
    (hnext : c.next = (.error e, c₁)) :
    ∃ e' c₁', c'.next = (.error e', c₁') ∧ e'.lowered = e.lowered
  /-- The group is captured directly behind the token that opens it. -/
  takeGroup_ok {c c' c₁ c₁' c₂ : Cursor} {token token' : Token} {opening : Char}
    {openedAt offset : Nat} {text : String} (h : Near c c') (hnext : c.next = (.ok (some token), c₁))
    (hnext' : c'.next = (.ok (some token'), c₁'))
    (hopening : token.isOpening (String.ofList [opening]) = true)
    (htake : c₁.takeGroup opening openedAt = (.ok (text, offset), c₂)) (openedAt' : Nat) :
    ∃ text' offset' c₂', c₁'.takeGroup opening openedAt' = (.ok (text', offset'), c₂') ∧
      SameGroup ⟨text, offset⟩ ⟨text', offset'⟩ ∧ Near c₂ c₂'
  takeGroup_error {c c' c₁ : Cursor} {opening : Char} {openedAt : Nat} {e : Error}
    (hstrict : Strict) (h : Near c c') (htake : c.takeGroup opening openedAt = (.error e, c₁)) :
    ∃ c₁', c'.takeGroup opening openedAt = (.error e, c₁')

namespace Pairing

variable {names : Names} (p : Pairing names) {α α' β β' : Type} {s s' s₁ : State}

/-- The trees correspond. -/
abbrev Same : Tree → Tree → Prop :=
  Tree.Alike p.SameName p.SameGroup

/-- The states have come from cursors that are near each other. -/
def Joined (s s' : State) : Prop :=
  ∃ c c' : Cursor, p.Near c c' ∧ s.From c ∧ s'.From c'

/-- The runs from `s` and `s'` keep together: if the first succeeds, so does the second, with what
corresponds to the result of the first, and if the failures matter, they are alike. -/
def Together (Result : α → α' → Prop) (x : Parser α) (y : Parser α') (s s' : State) : Prop :=
  Meets x s (fun a s₁ => ∃ a' s₁', y s' = .ok (a', s₁') ∧ Result a a' ∧ p.Joined s₁ s₁')
    fun e => p.Strict → ∃ e', y s' = .error e' ∧ e'.lowered = e.lowered

variable {p} {Result : α → α' → Prop} {After : β → β' → Prop} {x : Parser α} {y : Parser α'}

/-! ## States -/

/-- What is ahead of both. -/
theorem Joined.ahead (h : p.Joined s s') :
    (∃ token token', s.ahead = some token ∧ s'.ahead = some token' ∧
        token.Alike p.SameName p.Strict token') ∨
      (s.ahead = none ∧ s'.ahead = none) ∨
      ∃ token', s.ahead = none ∧ s'.ahead = some token' ∧ p.Ended token' := by
  obtain ⟨c, c', hnear, hs, hs'⟩ := h
  obtain ⟨ahead', c₁', hnext', hahead, -⟩ := p.next_ok hnear hs
  have hsame := hs'.symm.trans hnext'
  simp only [Prod.mk.injEq, Except.ok.injEq] at hsame
  rw [hsame.1]
  generalize s.ahead = ahead at hahead
  cases hahead with
  | token halike => exact .inl ⟨_, _, rfl, rfl, halike⟩
  | none => exact .inr (.inl ⟨rfl, rfl⟩)
  | ended hended => exact .inr (.inr ⟨_, rfl, rfl, hended⟩)

/-- Behind what they have found the cursors are near each other. -/
theorem Joined.cursor (h : p.Joined s s') (hread : s.ahead ≠ none ∨ p.Strict) :
    p.Near s.cursor s'.cursor := by
  obtain ⟨c, c', hnear, hs, hs'⟩ := h
  obtain ⟨ahead', c₁', hnext', -, hbehind⟩ := p.next_ok hnear hs
  have hsame := hs'.symm.trans hnext'
  simp only [Prod.mk.injEq, Except.ok.injEq] at hsame
  rw [hsame.2]
  exact hbehind hread

/-! ## Putting parsers together -/

theorem together_pure {a : α} {a' : α'} (h : Result a a') (hs : p.Joined s s') :
    p.Together Result (pure a) (pure a') s s' :=
  ⟨a', s', rfl, h, hs⟩

theorem together_fail {fault fault' : Fault} {offset offset' length length' : Nat}
    (h : p.Strict → fault'.lowered = fault.lowered ∧ offset' = offset ∧ length' = length) :
    p.Together Result (fail fault offset length) (fail fault' offset' length') s s' := by
  intro hstrict
  obtain ⟨hfault, rfl, rfl⟩ := h hstrict
  refine ⟨_, rfl, ?_⟩
  rw [Error.lowered, Error.lowered, hfault]

/-- Where failures do not matter, a parser that fails keeps together with any other. -/
theorem together_of_fails (hloose : ¬ p.Strict) (hx : Meets x s (fun _ _ => False) fun _ => True) :
    p.Together Result x y s s' :=
  hx.mono (fun _ _ h => h.elim) fun _ _ hstrict => absurd hstrict hloose

theorem together_bind {f : α → Parser β} {g : α' → Parser β'}
    (hx : p.Together Result x y s s')
    (hf : ∀ a a' s₁ s₁', Result a a' → p.Joined s₁ s₁' → p.Together After (f a) (g a') s₁ s₁') :
    p.Together After (x >>= f) (y >>= g) s s' := by
  unfold Together Meets at hx ⊢
  cases hrun : x s with
  | error e =>
    rw [hrun] at hx
    rw [bind_of_error hrun]
    intro hstrict
    obtain ⟨e', hy, he⟩ := hx hstrict
    exact ⟨e', bind_of_error hy, he⟩
  | ok result =>
    rw [hrun] at hx
    rw [bind_of_ok hrun]
    obtain ⟨a', s₁', hy, ha, hjoined⟩ := hx
    rw [bind_of_ok hy]
    exact hf result.1 a' result.2 s₁' ha hjoined

theorem together_map {f : α → β} {g : α' → β'} (hx : p.Together Result x y s s')
    (hf : ∀ a a', Result a a' → After (f a) (g a')) : p.Together After (f <$> x) (g <$> y) s s' := by
  rw [map_eq_pure_bind, map_eq_pure_bind]
  exact together_bind hx fun a a' _ _ ha hjoined => together_pure (hf a a' ha) hjoined

/-- What both parsers ask of the token ahead. -/
theorem together_peek {f : Option Token → Parser β} {g : Option Token → Parser β'}
    (h : p.Together After (f s.ahead) (g s'.ahead) s s') :
    p.Together After (peek >>= f) (peek >>= g) s s' := h

/-- What both parsers do behind a token that they take. -/
theorem together_next {f : Option Token → Parser β} {g : Option Token → Parser β'}
    (hs : p.Joined s s') (hread : s.ahead ≠ none ∨ p.Strict)
    (h : ∀ s₁ s₁', p.Joined s₁ s₁' → p.Together After (f s.ahead) (g s'.ahead) s₁ s₁') :
    p.Together After (next >>= f) (next >>= g) s s' := by
  have hnear := hs.cursor hread
  have hnext : p.Together (fun a a' => a = s.ahead ∧ a' = s'.ahead) next next s s' := by
    unfold Together Meets next
    rcases hrun : s.cursor.next with ⟨outcome, c₁⟩
    cases outcome with
    | error e =>
      intro hstrict
      obtain ⟨e', c₁', hrun', he⟩ := p.next_error hstrict hnear hrun
      simp only [hrun']
      exact ⟨e', rfl, he⟩
    | ok ahead =>
      obtain ⟨ahead', c₁', hrun', -, -⟩ := p.next_ok hnear hrun
      simp only [hrun']
      exact ⟨_, _, rfl, ⟨rfl, rfl⟩, s.cursor, s'.cursor, hnear, hrun, hrun'⟩
  refine together_bind hnext ?_
  rintro _ _ s₁ s₁' ⟨rfl, rfl⟩ hjoined
  exact h s₁ s₁' hjoined

theorem together_endOfText {wanted : Wanted} (hs : p.Joined s s') :
    p.Together Result (endOfText wanted) (endOfText wanted) s s' := by
  refine @together_fail _ p _ _ s s' _ _ _ _ _ _ _ ?_
  intro hstrict
  exact ⟨rfl, (p.position_eq hstrict (hs.cursor (.inr hstrict))).symm, rfl⟩

/-! ## Tokens that are alike -/

section Tokens

variable {token token' : Token}

theorem isOpening_eq (h : token.Alike p.SameName p.Strict token') {delimiter : String}
    (hdelimiter : ∀ d ∈ delimiter.toList, d.isAlpha = false) :
    token.isOpening delimiter = token'.isOpening delimiter := by
  have htext : token.text = delimiter ↔ token'.text = delimiter :=
    Text.eq_iff_of_fold_eq hdelimiter (p.indistinct.fold_eq h.name)
  simp only [Token.isOpening, h.kind_eq, htext]

theorem prefixOp?_eq (h : token.Alike p.SameName p.Strict token') :
    token.prefixOp? = token'.prefixOp? := by
  unfold Token.prefixOp?
  rw [h.kind_eq, Text.prefixOp?_congr (p.indistinct.fold_eq h.name)]

theorem infixOp?_eq (h : token.Alike p.SameName p.Strict token') :
    token.infixOp? = token'.infixOp? := by
  unfold Token.infixOp?
  rw [h.kind_eq, Text.infixOp?_congr (p.indistinct.fold_eq h.name)]

/-- A failure that quotes the token. -/
theorem together_fail_of_alike {fault fault' : Fault} (h : token.Alike p.SameName p.Strict token')
    (hfault : fault'.lowered = fault.lowered) :
    p.Together Result (fail fault token.position token.length)
      (fail fault' token'.position token'.length) s s' := by
  refine together_fail ?_
  intro hstrict
  have hplace := h.place_eq hstrict
  exact ⟨hfault, hplace.1.symm, hplace.2.symm⟩

theorem lowered_text_eq (h : token.Alike p.SameName p.Strict token') :
    Text.lowered token'.text = Text.lowered token.text := by
  rw [Text.lowered, Text.lowered, p.indistinct.fold_eq h.name]

end Tokens

theorem delimiter_parens : ∀ d ∈ "(".toList, d.isAlpha = false := forall_mem_of_all (by decide)

theorem delimiter_brackets : ∀ d ∈ "[".toList, d.isAlpha = false := forall_mem_of_all (by decide)

/-! ## Operands -/

/-- From wherever two runs are joined, those of the parser keep together. -/
def KeepsTogether (p : Pairing names) (x : Parser Tree) : Prop :=
  ∀ s s' : State, p.Joined s s' → p.Together p.Same x x s s'

section Operands

variable {depth turns : Nat} {inside : Parser Tree} {below : Option (Parser Tree)}
  {token token' : Token}

theorem together_group {opening : Char} (hs : p.Joined s s') (hahead : s.ahead = some token)
    (hahead' : s'.ahead = some token') (halike : token.Alike p.SameName p.Strict token')
    (hopening : token.isOpening (String.ofList [opening]) = true) :
    p.Together p.SameGroup (group ⟨names, depth, turns⟩ opening token.position)
      (group ⟨names, depth, turns⟩ opening token'.position) s s' := by
  have hbehind := hs.cursor
  obtain ⟨c, c', hnear, hfrom, hfrom'⟩ := hs
  have hnext : c.next = (.ok (some token), s.cursor) := hahead ▸ hfrom
  have hnext' : c'.next = (.ok (some token'), s'.cursor) := hahead' ▸ hfrom'
  unfold Together Meets group
  by_cases hdepth : groupLimit ≤ depth
  · simp only [hdepth, if_true]
    intro hstrict
    exact ⟨_, rfl, by rw [(halike.place_eq hstrict).1]⟩
  simp only [hdepth, if_false]
  rcases htake : s.cursor.takeGroup opening token.position with ⟨outcome, c₂⟩
  cases outcome with
  | error e =>
    intro hstrict
    obtain ⟨c₂', htake'⟩ := p.takeGroup_error hstrict (hbehind (.inr hstrict)) htake
    rw [← (halike.place_eq hstrict).1]
    simp only [htake']
    exact ⟨e, rfl, rfl⟩
  | ok taken =>
    obtain ⟨text, offset⟩ := taken
    obtain ⟨text', offset', c₂', htake', hgroup, hnear₂⟩ :=
      p.takeGroup_ok hnear hnext hnext' hopening htake token'.position
    simp only [htake']
    rcases hread : c₂.next with ⟨outcome, c₃⟩
    cases outcome with
    | error e =>
      intro hstrict
      obtain ⟨e', c₃', hread', he⟩ := p.next_error hstrict hnear₂ hread
      simp only [hread']
      exact ⟨e', rfl, he⟩
    | ok ahead =>
      obtain ⟨ahead', c₃', hread', -, -⟩ := p.next_ok hnear₂ hread
      simp only [hread']
      exact ⟨_, _, rfl, hgroup, c₂, c₂', hnear₂, hread, hread'⟩

theorem together_nameAlone (hs : p.Joined s s')
    (halike : token.Alike p.SameName p.Strict token') :
    p.Together p.Same (nameAlone ⟨names, depth, turns⟩ token)
      (nameAlone ⟨names, depth, turns⟩ token') s s' := by
  have hname := halike.name
  unfold nameAlone
  simp only [p.indistinct.constant?_eq hname, p.indistinct.isVariable_eq hname, p.indistinct.isFunction_eq hname]
  split
  · exact together_pure (.literal _) hs
  split
  · exact together_pure (.reference hname) hs
  split
  · exact together_fail_of_alike halike
      (congrArg Fault.functionNotCalled (lowered_text_eq halike))
  · exact together_fail_of_alike halike
      (congrArg Fault.unknownIdentifier (lowered_text_eq halike))

theorem together_name (hs : p.Joined s s') (halike : token.Alike p.SameName p.Strict token') :
    p.Together p.Same (name ⟨names, depth, turns⟩ token) (name ⟨names, depth, turns⟩ token') s s' := by
  have hfold := p.indistinct.fold_eq halike.name
  unfold name
  rw [Text.sameFolded_congr hfold, Text.sameFolded_congr hfold]
  split
  · exact together_pure (.literal _) hs
  split
  · exact together_pure (.literal _) hs
  refine together_peek ?_
  rcases hs.ahead with ⟨opening, opening', hahead, hahead', hopening⟩ | ⟨hahead, hahead'⟩ |
    ⟨opening', hahead, hahead', hended⟩
  · simp only [hahead, hahead', ← isOpening_eq hopening delimiter_parens,
      ← p.indistinct.isFunction_eq halike.name]
    split
    · rename_i hcall
      rw [Bool.and_eq_true] at hcall
      exact together_map (together_group hs hahead hahead' hopening hcall.1) fun _ _ hgroup =>
        .call halike.name hgroup
    · exact together_nameAlone hs halike
  · simp only [hahead, hahead']
    exact together_nameAlone hs halike
  · -- what ends the second expression opens no call
    simp only [hahead, hahead', (p.loose hended).2.2, Bool.false_and, Bool.false_eq_true, if_false]
    exact together_nameAlone hs halike

theorem together_close {openedAt openedAt' : Nat} (hs : p.Joined s s')
    (hplace : p.Strict → openedAt' = openedAt) :
    p.Together (fun _ _ => True) (close openedAt) (close openedAt') s s' := by
  have hfails : s.ahead = none → Meets (close openedAt) s (fun _ _ => False) fun _ => True := by
    intro hnone
    refine meets_close (fun _ _ _ => trivial) (fun _ => trivial) ?_ (fun _ _ _ => trivial)
    intro token _ hahead
    cases hnone.symm.trans hahead
  rcases hs.ahead with ⟨token, token', hahead, hahead', halike⟩ | ⟨hahead, hahead'⟩ |
    ⟨token', hahead, _, hended⟩
  · refine together_next hs (.inl (by simp [hahead])) ?_
    intro s₁ s₁' hjoined
    have hclosed : token.text = ")" ↔ token'.text = ")" :=
      Text.eq_iff_of_fold_eq (forall_mem_of_all (by decide)) (p.indistinct.fold_eq halike.name)
    simp only [hahead, hahead', hclosed]
    split
    · exact together_pure trivial hjoined
    · refine together_fail ?_
      intro hstrict
      have hsame := halike.place_eq hstrict
      refine ⟨?_, hsame.1.symm, hsame.2.symm⟩
      simp only [Fault.lowered, lowered_text_eq halike, hplace hstrict]
  · by_cases hstrict : p.Strict
    · refine together_next hs (.inr hstrict) ?_
      intro s₁ s₁' _
      simp only [hahead, hahead']
      exact together_fail fun hstrict => ⟨rfl, hplace hstrict, rfl⟩
    · exact together_of_fails hstrict (hfails hahead)
  · exact together_of_fails (p.loose hended).1 (hfails hahead)

/-- Without a token ahead there is no operand. -/
theorem meets_primary_of_none {setting : Setting} {post : Tree → State → Prop}
    (hnone : s.ahead = none) : Meets (primary setting inside) s post fun _ => True := by
  refine meets_primary (fun _ => trivial) ?_ ?_
  · intro token hahead
    cases hnone.symm.trans hahead
  · intro token hahead
    cases hnone.symm.trans hahead

theorem meets_operandOver_of_none {setting : Setting} {post : Tree → State → Prop}
    (hnone : s.ahead = none) : Meets (operandOver setting inside below) s post fun _ => True := by
  refine meets_operandOver (fun _ => meets_primary_of_none hnone) ?_
  intro op hop
  rw [hnone] at hop
  cases hop

theorem together_primary (hinside : p.KeepsTogether inside) :
    p.KeepsTogether (primary ⟨names, depth, turns⟩ inside) := by
  intro s s' hs
  rcases hs.ahead with ⟨token, token', hahead, hahead', halike⟩ | ⟨hahead, hahead'⟩ |
    ⟨token', hahead, _, hended⟩
  · refine together_peek ?_
    simp only [hahead, hahead', ← isOpening_eq halike delimiter_brackets]
    split
    · exact together_map (together_group hs hahead hahead' halike ‹_›) fun _ _ => .array
    · refine together_next hs (.inl (by simp [hahead])) ?_
      intro s₁ s₁' hjoined
      have hunexpected : p.Together p.Same
          (fail (.unexpectedToken token.text) token.position token.length)
          (fail (.unexpectedToken token'.text) token'.position token'.length) s₁ s₁' :=
        together_fail_of_alike halike (congrArg Fault.unexpectedToken (lowered_text_eq halike))
      simp only [← halike.kind_eq]
      cases hkind : token.kind with
      | number x => exact together_pure (.literal _) hjoined
      | string =>
        rw [halike.text_eq hkind]
        exact together_pure (.literal _) hjoined
      | identifier => exact together_name hjoined halike
      | opening =>
        refine together_bind (hinside s₁ s₁' hjoined) ?_
        intro t t' s₂ s₂' ht hjoined₂
        have hplace : p.Strict → token'.position = token.position :=
          fun hstrict => (halike.place_eq hstrict).1.symm
        exact together_bind (together_close hjoined₂ hplace) fun _ _ _ _ _ hjoined₃ =>
          together_pure ht hjoined₃
      | operator | closing | separator => exact hunexpected
  · refine together_peek ?_
    simp only [hahead, hahead']
    exact together_endOfText hs
  · exact together_of_fails (p.loose hended).1 (meets_primary_of_none hahead)

theorem together_operandOver (hinside : p.KeepsTogether inside)
    (hbelow : ∀ operand, below = some operand → p.KeepsTogether operand) :
    p.KeepsTogether (operandOver ⟨names, depth, turns⟩ inside below) := by
  intro s s' hs
  rcases hs.ahead with ⟨token, token', hahead, hahead', halike⟩ | ⟨hahead, hahead'⟩ |
    ⟨token', hahead, _, hended⟩
  · refine together_peek ?_
    simp only [hahead, hahead', Option.bind_some, ← prefixOp?_eq halike]
    cases token.prefixOp? with
    | none => exact together_primary hinside s s' hs
    | some op =>
      refine together_next hs (.inl (by simp [hahead])) ?_
      intro s₁ s₁' hjoined
      rcases hjoined.ahead with ⟨behind, behind', hbehind, hbehind', -⟩ | ⟨hbehind, hbehind'⟩ |
        ⟨behind', hbehind, _, hended⟩
      · refine together_peek ?_
        simp only [hbehind, hbehind', Option.isNone_some, Bool.false_eq_true, if_false]
        cases below with
        | none =>
          have hplace : p.Strict → s₁'.cursor.position = s₁.cursor.position :=
            fun hstrict => (p.position_eq hstrict (hjoined.cursor (.inr hstrict))).symm
          exact @together_fail _ p _ _ s₁ s₁' _ _ _ _ _ _ _ fun hstrict =>
            ⟨rfl, hplace hstrict, rfl⟩
        | some operand =>
          exact together_map (hbelow operand rfl s₁ s₁' hjoined) fun _ _ => Tree.Alike.unary op
      · refine together_peek ?_
        simp only [hbehind, hbehind', Option.isNone_none, if_true]
        exact together_endOfText hjoined
      · refine together_of_fails (p.loose hended).1 (meets_peek ?_)
        simp only [hbehind, Option.isNone_none, if_true]
        exact meets_endOfText trivial
  · refine together_peek ?_
    simp only [hahead, hahead', Option.bind_none]
    exact together_primary hinside s s' hs
  · exact together_of_fails (p.loose hended).1 (meets_operandOver_of_none hahead)

/-! ## Expressions -/

theorem together_climb {right : Nat → Parser Tree} {least rounds : Nat} {left left' : Tree}
    (hright : ∀ level, p.KeepsTogether (right level)) (hs : p.Joined s s')
    (hleft : p.Same left left') :
    p.Together p.Same (climb right least rounds left) (climb right least rounds left') s s' := by
  -- on the turns that are left, for any two left operands that correspond
  induction rounds generalizing left left' s s' with
  | zero => exact together_pure hleft hs
  | succ rounds ih =>
    refine together_peek ?_
    rcases hs.ahead with ⟨token, token', hahead, hahead', halike⟩ | ⟨hahead, hahead'⟩ |
      ⟨token', hahead, hahead', hended⟩
    · simp only [hahead, hahead', Option.bind_some, ← infixOp?_eq halike]
      cases token.infixOp? with
      | none => exact together_pure hleft hs
      | some op =>
        simp only
        split
        · exact together_pure hleft hs
        refine together_next hs (.inl (by simp [hahead])) ?_
        intro s₁ s₁' hjoined
        rcases hjoined.ahead with ⟨behind, behind', hbehind, hbehind', -⟩ | ⟨hbehind, hbehind'⟩ |
          ⟨behind', hbehind, _, hended⟩
        · refine together_peek ?_
          simp only [hbehind, hbehind', Option.isNone_some, Bool.false_eq_true, if_false]
          refine together_bind (hright _ s₁ s₁' hjoined) ?_
          intro operand operand' s₂ s₂' hoperand hjoined₂
          exact ih hjoined₂ (.binary op hleft hoperand)
        · refine together_peek ?_
          simp only [hbehind, hbehind', Option.isNone_none, if_true]
          exact together_endOfText hjoined
        · refine together_of_fails (p.loose hended).1 (meets_peek ?_)
          simp only [hbehind, Option.isNone_none, if_true]
          exact meets_endOfText trivial
    · simp only [hahead, hahead', Option.bind_none]
      exact together_pure hleft hs
    · -- what ends the second expression is no operator
      simp only [hahead, hahead', Option.bind_none, Option.bind_some, (p.loose hended).2.1]
      exact together_pure hleft hs

theorem together_tooDeep : p.KeepsTogether tooDeep := by
  intro s s' hs
  refine together_peek (together_fail ?_)
  intro hstrict
  refine ⟨rfl, ?_, rfl⟩
  rcases hs.ahead with ⟨token, token', hahead, hahead', halike⟩ | ⟨hahead, hahead'⟩ |
    ⟨token', _, _, hended⟩
  · simp only [hahead, hahead', Option.map_some, (halike.place_eq hstrict).1]
  · simp only [hahead, hahead']
  · exact absurd hstrict (p.loose hended).1

/-- Within any budget the runs keep together. -/
theorem together_stage (depth turns n : Nat) :
    p.KeepsTogether (stage ⟨names, depth, turns⟩ n).operand ∧
      ∀ level, p.KeepsTogether ((stage ⟨names, depth, turns⟩ n).expression level) := by
  refine @stage_induction ⟨names, depth, turns⟩ p.KeepsTogether (fun _ => p.KeepsTogether) ?_ ?_ ?_ n
  · exact fun _ => together_tooDeep
  · intro inside below hinside hbelow
    exact together_operandOver hinside hbelow
  · intro operand right level hoperand hright s s' hs
    refine together_bind (hoperand s s' hs) ?_
    intro left left' s₁ s₁' hleft hjoined
    exact together_climb hright hjoined hleft

end Operands

/-! ## Whole texts -/

/-- If both texts end where the first does, the second is an expression where the first is. -/
theorem together_whole (depth turns budget : Nat) (hended : ∀ token, ¬ p.Ended token) :
    p.KeepsTogether (whole ⟨names, depth, turns⟩ budget) := by
  intro s s' hs
  refine together_bind ((together_stage depth turns budget).2 0 s s' hs) ?_
  intro t t' s₁ s₁' ht hjoined
  refine together_peek ?_
  rcases hjoined.ahead with ⟨token, token', hahead, hahead', halike⟩ | ⟨hahead, hahead'⟩ |
    ⟨token', _, _, hbehind⟩
  · simp only [hahead, hahead']
    exact together_fail_of_alike halike (congrArg Fault.unexpectedToken (lowered_text_eq halike))
  · simp only [hahead, hahead']
    exact together_pure ht hjoined
  · exact absurd hbehind (hended token')

theorem ends_map {f : α → β} {outcome : Except Error α} {holds : β → Prop} {failure : Error → Prop}
    (h : Ends outcome (fun a => holds (f a)) failure) : Ends (outcome.map f) holds failure := by
  cases outcome with
  | error e => exact h
  | ok a => exact h

/-- Texts that are near each other have trees that correspond, or their errors are alike, if errors
matter. -/
theorem parse_together {depth : Nat} {text text' : String} (hended : ∀ token, ¬ p.Ended token)
    (hnear : p.Near (Cursor.ofText text) (Cursor.ofText text')) :
    Ends (names.parse depth text) (fun t => ∃ t', names.parse depth text' = .ok t' ∧ p.Same t t')
      fun e => p.Strict → ∃ e', names.parse depth text' = .error e' ∧ e'.lowered = e.lowered := by
  rcases hnext : (Cursor.ofText text).next with ⟨outcome, c₁⟩
  cases outcome with
  | error e =>
    rw [parse_eq_error hnext]
    intro hstrict
    obtain ⟨e', c₁', hnext', he⟩ := p.next_error hstrict hnear hnext
    exact ⟨e', parse_eq_error hnext', he⟩
  | ok ahead =>
    obtain ⟨ahead', c₁', hnext', -, -⟩ := p.next_ok hnear hnext
    have hs : State.From ⟨ahead, c₁⟩ (Cursor.ofText text) := hnext
    have hs' : State.From ⟨ahead', c₁'⟩ (Cursor.ofText text') := hnext'
    -- one number of turns does for both texts
    have hwhole := together_whole depth (max text.length text'.length) (nestingLimit - depth) hended
      _ _ ⟨_, _, hnear, hs, hs'⟩
    rw [parse_eq_of_length_le hs (Nat.le_max_left text.length text'.length),
      parse_eq_of_length_le hs' (Nat.le_max_right text.length text'.length)]
    refine ends_map (Ends.mono hwhole ?_ ?_)
    · rintro ⟨t, s₁⟩ ⟨t', s₁', hrun, ht, -⟩
      exact ⟨t', by rw [hrun]; rfl, ht⟩
    · intro e hfailed hstrict
      obtain ⟨e', hrun, he⟩ := hfailed hstrict
      exact ⟨e', by rw [hrun]; rfl, he⟩

end Pairing

end Parser

end Formula
