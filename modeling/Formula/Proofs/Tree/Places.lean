import Formula.Evaluation
import Formula.Proofs.Place
import Formula.Proofs.Token.Cursor
import Formula.Proofs.Tree.Rules

/-! # The places of tokens, groups and parse errors

A cursor on a text knows how far it has come. So every token it finds stands where it says, every
group is captured with the place it stands at, and every error of the lexer and the parser is exact
in the text. The invariant is that the state has come from a cursor on the text.
-/

namespace Formula

/-! ## Cursors on a text -/

/-- The cursor stands behind as many characters of the text as it counts. -/
def Cursor.On (text : List Char) (c : Cursor) : Prop :=
  ∃ before, text = before ++ c.rest ∧ before.length = c.position

/-- The token stands in the text where it says. -/
def Token.LiesIn (text : List Char) (token : Token) : Prop :=
  ∃ lexeme, StandsAt text token.position lexeme ∧ lexeme ≠ [] ∧ token.length = lexeme.length ∧
    token.text = token.kind.textOf lexeme

/-- The raw text of the group stands where it says, with the closing delimiter behind it. -/
def Group.LiesIn (text : List Char) (group : Group) : Prop :=
  StandsAt text group.offset group.text.toList ∧
    group.offset + group.text.toList.length < text.length

namespace Cursor

variable {text : List Char} {c c' : Cursor}

theorem on_ofText (text : String) : (ofText text).On text.toList :=
  ⟨[], rfl, rfl⟩

theorem On.length_eq (hc : c.On text) : text.length = c.position + c.rest.length := by
  rcases hc with ⟨before, htext, hbefore⟩
  rw [htext, List.length_append, hbefore]

/-- What stands ahead of the cursor stands at its position. -/
theorem On.standsAt {piece rest : List Char} (hc : c.On text) (hrest : c.rest = piece ++ rest) :
    StandsAt text c.position piece := by
  rcases hc with ⟨before, htext, hbefore⟩
  rw [hrest] at htext
  exact ⟨before, rest, htext, hbefore⟩

/-- So does what stands behind the blanks ahead. -/
theorem On.standsAt_behind {blanks piece rest : List Char} (hc : c.On text)
    (hrest : c.rest = blanks ++ (piece ++ rest)) :
    StandsAt text (c.position + blanks.length) piece := by
  rcases hc with ⟨before, htext, hbefore⟩
  refine ⟨before ++ blanks, rest, ?_, ?_⟩
  · rw [htext, hrest, List.append_assoc]
  · rw [List.length_append, hbefore]

/-- Behind what was ahead of it, the cursor is still on the text. -/
theorem On.advance (hc : c.On text) (piece : List Char) (hrest : c.rest = piece ++ c'.rest)
    (hposition : c'.position = c.position + piece.length) : c'.On text := by
  rcases hc with ⟨before, htext, hbefore⟩
  refine ⟨before ++ piece, ?_, ?_⟩
  · rw [htext, hrest, List.append_assoc]
  · rw [List.length_append, hbefore, hposition]

/-- Behind a token, or at the end, the cursor is still on the text. -/
theorem On.of_next {ahead : Option Token} (hc : c.On text) (h : c.next = (.ok ahead, c')) :
    c'.On text := by
  obtain ⟨piece, hrest, hposition, -⟩ := passes_of_next h
  exact hc.advance piece hrest hposition

theorem On.liesIn_of_next {token : Token} (hc : c.On text) (h : c.next = (.ok (some token), c')) :
    token.LiesIn text := by
  rcases cuts_of_next h with ⟨blanks, lexeme, hcuts⟩
  refine ⟨lexeme, ?_, hcuts.lexeme_ne, hcuts.length_eq, hcuts.text_eq⟩
  rw [hcuts.position_eq]
  exact hc.standsAt_behind hcuts.rest_eq

/-- A fault of the lexer is exact. -/
theorem On.exactIn_of_next {e : Error} (hc : c.On text) (h : c.next = (.error e, c')) :
    e.ExactIn text := by
  rcases faultsAt_of_next h with ⟨blanks, first, others, fault, lexeme, hrest, rfl, hlength, hfault⟩
  have hbound : c.position + blanks.length + max 1 lexeme.length ≤ text.length := by
    rw [hc.length_eq, hrest, List.length_append, List.length_cons]
    omega
  cases fault with
  | unexpectedCharacter d =>
    -- the one fault of the lexer that names what it is about
    rcases hfault with ⟨rfl, rfl⟩
    have hstands : StandsAt text (c.position + blanks.length) [d] := hc.standsAt_behind hrest
    exact ⟨[d], hstands, rfl, rfl⟩
  | unterminatedString => exact exactIn_of_le (fun _ => trivial) hbound
  | missingExponentDigits => exact exactIn_of_le (fun _ => trivial) hbound
  | invalidNumber lexeme => exact exactIn_of_le (fun _ => trivial) hbound
  | _ =>
    -- the faults of the parser
    exact hfault.elim

/-! ## Raw groups -/

/-- A group is captured with its place. -/
theorem On.of_takeGroup {opening : Char} {openedAt offset : Nat} {raw : String} (hc : c.On text)
    (h : c.takeGroup opening openedAt = (.ok (raw, offset), c')) :
    Group.LiesIn text ⟨raw, offset⟩ ∧ c'.On text := by
  obtain ⟨hclosed, rfl, hbehind⟩ := untilClosed_of_takeGroup h
  obtain ⟨closing, hrest⟩ := untilClosed_append hclosed
  have hlength := hc.length_eq
  rw [hrest, List.length_append, List.length_cons] at hlength
  refine ⟨⟨hc.standsAt hrest, ?_⟩, ?_⟩
  · show c.position + raw.toList.length < text.length
    omega
  · refine hc.advance (raw.toList ++ [closing]) ?_ ?_
    · rw [hrest, List.append_assoc]
      rfl
    · rw [List.length_append, List.length_singleton, hbehind, Nat.add_assoc]

/-- What opened a group that is not closed is where it was found. -/
theorem exactIn_of_takeGroup {opening : Char} {openedAt : Nat} {e : Error}
    (hopened : openedAt < text.length) (h : c.takeGroup opening openedAt = (.error e, c')) :
    e.ExactIn text := by
  unfold takeGroup at h
  split at h
  · cases h
  · cases h
    exact exactIn_of_le (fun _ => trivial) hopened

end Cursor

namespace Token

variable {text : List Char} {token : Token}

theorem LiesIn.le_length (h : token.LiesIn text) : token.position + token.length ≤ text.length := by
  rcases h with ⟨lexeme, hstands, _, hlength, _⟩
  rw [hlength]
  exact hstands.length_le

theorem LiesIn.lt_length (h : token.LiesIn text) : token.position < text.length := by
  rcases h with ⟨lexeme, hstands, hne, _, _⟩
  have hpos := List.length_pos_iff.mpr hne
  have hle := hstands.length_le
  omega

/-- A name stands in the text as it is spelled. -/
theorem LiesIn.standsAt_text (h : token.LiesIn text) (hkind : token.kind = .identifier) :
    StandsAt text token.position token.text.toList ∧ token.text.toList.length = token.length := by
  rcases h with ⟨lexeme, hstands, _, hlength, htext⟩
  rw [hkind] at htext
  have hlexeme : token.text.toList = lexeme := by
    rw [htext]
    exact String.toList_ofList
  rw [hlexeme]
  exact ⟨hstands, hlength.symm⟩

end Token

/-! ## The parser -/

/-- The groups of the tree stand in the text where they say. -/
def Tree.GroupsLieIn (text : List Char) : Tree → Prop
  | .literal _ => True
  | .reference _ => True
  | .unary _ operand => operand.GroupsLieIn text
  | .binary _ left right => left.GroupsLieIn text ∧ right.GroupsLieIn text
  | .array group => group.LiesIn text
  | .call _ group => group.LiesIn text

namespace Parser

/-- The state has come from a cursor on the text. -/
def State.On (text : List Char) (s : State) : Prop :=
  ∃ c : Cursor, c.On text ∧ s.From c

/-- Anywhere on the text, the parser keeps to it: the groups of its result stand where they say, it
stays on the text, and its errors are exact. -/
def Keeps (text : List Char) (x : Parser Tree) : Prop :=
  ∀ {s : State}, s.On text →
    Meets x s (fun tree s' => tree.GroupsLieIn text ∧ s'.On text) (Error.ExactIn text)

variable {text : List Char} {setting : Setting} {inside : Parser Tree}
  {below : Option (Parser Tree)} {s s' : State} {token : Token}

namespace State.On

theorem cursor (hs : s.On text) : s.cursor.On text := by
  rcases hs with ⟨c, hc, hfrom⟩
  exact hc.of_next hfrom

theorem ahead (hs : s.On text) (hahead : s.ahead = some token) : token.LiesIn text := by
  rcases hs with ⟨c, hc, hfrom⟩
  rw [State.From, hahead] at hfrom
  exact hc.liesIn_of_next hfrom

theorem step (hs : s.On text) (hs' : s'.From s.cursor) : s'.On text :=
  ⟨s.cursor, hs.cursor, hs'⟩

theorem exactIn_of_next (hs : s.On text) (e : Error) (c : Cursor)
    (h : s.cursor.next = (.error e, c)) : e.ExactIn text :=
  hs.cursor.exactIn_of_next h

/-- The text may end wherever the cursor stands. -/
theorem exactIn_endOfText (hs : s.On text) (wanted : Wanted) :
    (Error.positioned (.endOfText wanted) s.cursor.position 0).ExactIn text := by
  have hlength := hs.cursor.length_eq
  exact exactIn_of_le (fun _ => trivial) (by omega)

end State.On

theorem meets_group_of_on {opening : Char} {openedAt : Nat} (hs : s.On text)
    (hopened : openedAt < text.length) :
    Meets (group setting opening openedAt) s (fun found s' => found.LiesIn text ∧ s'.On text)
      (Error.ExactIn text) := by
  refine meets_group ?_ ?_ ?_
  · intro _
    exact exactIn_of_le (fun _ => trivial) hopened
  · intro e c htake
    exact Cursor.exactIn_of_takeGroup hopened htake
  · intro _ raw offset c htake
    have hclosed := hs.cursor.of_takeGroup htake
    constructor
    · intro e c' hnext
      exact hclosed.2.exactIn_of_next hnext
    · intro s' hs'
      exact ⟨hclosed.1, c, hclosed.2, hs'⟩

theorem keeps_tooDeep : Keeps text tooDeep := by
  intro s hs
  refine meets_peek (meets_fail ?_)
  cases hahead : s.ahead with
  | none => exact exactIn_of_le (fun _ => trivial) (Nat.zero_le _)
  | some token =>
    have hlt := (hs.ahead hahead).lt_length
    exact exactIn_of_le (fun _ => trivial) (Nat.le_of_lt hlt)

/-- The error about a name is about the name as it stands in the text. -/
theorem meets_name_of_on (htoken : token.LiesIn text) (hkind : token.kind = .identifier)
    (hs : s.On text) :
    Meets (name setting token) s (fun tree s' => tree.GroupsLieIn text ∧ s'.On text)
      (Error.ExactIn text) := by
  have hname := htoken.standsAt_text hkind
  refine meets_name ?_ ?_ (meets_nameAlone ?_ ?_ ?_ ?_)
  · intro b
    exact ⟨trivial, hs⟩
  · intro opening hahead _ _
    exact meets_map (meets_group_of_on hs (hs.ahead hahead).lt_length)
  · intro value _
    exact ⟨trivial, hs⟩
  · intro _
    exact ⟨trivial, hs⟩
  · intro _
    exact ⟨_, hname.1, hname.2, rfl⟩
  · exact ⟨_, hname.1, hname.2, rfl⟩

theorem meets_close_of_on {opening : Token} (hopening : opening.LiesIn text) (hs : s.On text) :
    Meets (close opening.position) s (fun _ s' => s'.On text) (Error.ExactIn text) := by
  refine meets_close hs.exactIn_of_next ?_ ?_ ?_
  · intro _
    exact exactIn_of_le (fun _ => trivial) hopening.lt_length
  · intro closing s' _ _ hs'
    exact hs.step hs'
  · intro found hahead _
    exact exactIn_of_le (fun _ => trivial) (hs.ahead hahead).le_length

theorem keeps_primary (hinside : Keeps text inside) : Keeps text (primary setting inside) := by
  intro s hs
  refine meets_primary ?_ ?_ ?_
  · intro _
    exact hs.exactIn_endOfText .expression
  · intro token hahead _
    exact meets_map (meets_group_of_on hs (hs.ahead hahead).lt_length)
  · intro token hahead _
    have htoken := hs.ahead hahead
    refine meets_next ?_ hs.exactIn_of_next
    intro s' hs'
    have hon := hs.step hs'
    unfold operandFrom
    split
    -- a number, a string, a name, a parenthesis, and what begins no operand
    · exact meets_pure ⟨trivial, hon⟩
    · exact meets_pure ⟨trivial, hon⟩
    · exact meets_name_of_on htoken ‹_› hon
    · refine meets_bind (hinside hon) ?_
      intro tree s'' hs''
      refine meets_bind (meets_close_of_on htoken hs''.2) ?_
      intro _ s''' hs'''
      exact meets_pure ⟨hs''.1, hs'''⟩
    all_goals exact meets_fail (exactIn_of_le (fun _ => trivial) htoken.le_length)

theorem keeps_operandOver (hinside : Keeps text inside)
    (hbelow : ∀ operand, below = some operand → Keeps text operand) :
    Keeps text (operandOver setting inside below) := by
  intro s hs
  refine meets_operandOver (fun _ => keeps_primary hinside hs) ?_
  intro op _
  refine ⟨hs.exactIn_of_next, ?_⟩
  intro s' hs'
  have hon := hs.step hs'
  constructor
  · intro _
    exact hon.exactIn_endOfText (.operandAfter op)
  · intro _
    cases below with
    | none =>
      have hlength := hon.cursor.length_eq
      exact exactIn_of_le (fun _ => trivial) (by omega)
    | some operand => exact meets_map (hbelow operand rfl hon)

theorem meets_climb_of_on {right : Nat → Parser Tree} {least turns : Nat} {left : Tree}
    (hright : ∀ level, Keeps text (right level)) (hleft : left.GroupsLieIn text)
    (hs : s.On text) :
    Meets (climb right least turns left) s (fun tree s' => tree.GroupsLieIn text ∧ s'.On text)
      (Error.ExactIn text) := by
  -- on the turns that are left, for any left operand that keeps to the text
  induction turns generalizing left s with
  | zero => exact meets_pure ⟨hleft, hs⟩
  | succ turns ih =>
    refine meets_climb_succ (fun _ => ⟨hleft, hs⟩) ?_
    intro op _ _
    refine ⟨hs.exactIn_of_next, ?_⟩
    intro s' hs'
    have hon := hs.step hs'
    constructor
    · intro _
      exact hon.exactIn_endOfText .operand
    · intro _
      refine (hright _ hon).mono ?_ (fun _ he => he)
      intro operand s'' hs''
      exact ih ⟨hleft, hs''.1⟩ hs''.2

theorem keeps_stage (n : Nat) :
    Keeps text (stage setting n).operand ∧
      ∀ level, Keeps text ((stage setting n).expression level) := by
  refine @stage_induction setting (Keeps text) (fun _ => Keeps text) ?_ ?_ ?_ n
  · intro _
    exact keeps_tooDeep
  · intro inside below hinside hbelow
    exact keeps_operandOver hinside hbelow
  · intro operand right level hoperand hright s hs
    refine meets_bind (hoperand hs) ?_
    intro left s' hs'
    exact meets_climb_of_on hright hs'.1 hs'.2

end Parser

/-! ## Whole texts -/

/-- The groups of a parsed tree stand in the text, and the errors of the parser are exact in it. -/
theorem Names.parse_keeps (names : Names) (depth : Nat) (text : String) :
    Parser.Ends (names.parse depth text) (fun tree => tree.GroupsLieIn text.toList)
      (Error.ExactIn text.toList) := by
  have hstart := Cursor.on_ofText text
  refine Parser.parse_meets ?_ ?_
  · intro e c hnext
    exact hstart.exactIn_of_next hnext
  · intro s hs
    have hon : s.On text.toList := ⟨Cursor.ofText text, hstart, hs⟩
    refine Parser.meets_whole (((Parser.keeps_stage _).2 0 hon).mono ?_ (fun _ he => he))
    intro tree s' hs'
    refine ⟨fun _ => hs'.1, ?_⟩
    intro token hahead
    exact exactIn_of_le (fun _ => trivial) (hs'.2.ahead hahead).le_length

theorem Scope.groupsLieIn_of_parse {scope : Scope} {text : String} {tree : Tree}
    (h : scope.parse text = .ok tree) : tree.GroupsLieIn text.toList := by
  have hkeeps := (scope.registry.names scope.mode).parse_keeps scope.depth text
  rw [Scope.parse] at h
  rw [h] at hkeeps
  exact hkeeps

theorem Scope.exactIn_of_parse {scope : Scope} {text : String} {e : Error}
    (h : scope.parse text = .error e) : e.ExactIn text.toList := by
  have hkeeps := (scope.registry.names scope.mode).parse_keeps scope.depth text
  rw [Scope.parse] at h
  rw [h] at hkeeps
  exact hkeeps

end Formula
