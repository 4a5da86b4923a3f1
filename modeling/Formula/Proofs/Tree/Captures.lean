import Formula.Proofs.Pieces
import Formula.Proofs.Tree.Places

/-! # Captured groups are slices

The parser takes the tokens of a text from left to right, and captures a group from behind the token
that opens it, with nothing behind that token read. So what it captures between two cursors lies
between them, in order, and each group is what stands between two delimiters. The invariant is a chain
of captures from one position to another; parsers that follow one another join their chains.
-/

namespace Formula

/-! ## Captures -/

/-- A group in a tree, with the name of the function it holds the arguments of, if it does. -/
structure Capture where
  name? : Option String
  group : Group

namespace Capture

/-- The delimiter before the group. -/
def opening (capture : Capture) : Char :=
  if capture.name?.isSome then '(' else '['

/-- The delimiter behind the group. -/
def closing (capture : Capture) : Char :=
  if capture.name?.isSome then ')' else ']'

theorem closes (capture : Capture) : Cursor.Closes capture.opening capture.closing := by
  unfold opening closing
  split
  · exact .inr ⟨rfl, rfl⟩
  · exact .inl ⟨rfl, rfl⟩

theorem opening_cases (capture : Capture) : capture.opening = '[' ∨ capture.opening = '(' :=
  capture.closes.imp And.left And.left

/-- Where the delimiter behind the group stands. -/
def finish (capture : Capture) : Nat :=
  capture.group.offset + capture.group.text.length

/-- The group stands in the text where it says, between its delimiters, and the name of the function
stands before, with nothing but blanks between. -/
structure CutFrom (text : List Char) (capture : Capture) : Prop where
  standsAt : StandsAt text (capture.group.offset - 1)
    (capture.opening :: (capture.group.text.toList ++ [capture.closing]))
  offset_pos : 0 < capture.group.offset
  named : ∀ name, capture.name? = some name → ∃ front blanks,
    text.take (capture.group.offset - 1) = front ++ (name.toList ++ blanks) ∧
      ∀ d ∈ blanks, Text.isBlank d = true

end Capture

/-- What has been captured, from left to right. -/
def Tree.captures : Tree → List Capture
  | .literal _ | .reference _ => []
  | .unary _ operand => operand.captures
  | .binary _ left right => left.captures ++ right.captures
  | .array group => [⟨none, group⟩]
  | .call name group => [⟨some name, group⟩]

/-! ## Chains -/

/-- The captures are cut from the text, one behind the other, between two positions. -/
inductive Captured (text : List Char) : Nat → List Capture → Nat → Prop where
  | nil {low high : Nat} (h : low ≤ high) : Captured text low [] high
  | cons {low high : Nat} {capture : Capture} {captures : List Capture}
      (hcut : capture.CutFrom text) (hlow : low < capture.group.offset)
      (hrest : Captured text (capture.finish + 1) captures high) :
      Captured text low (capture :: captures) high

namespace Captured

variable {text : List Char} {low middle high : Nat} {captures later : List Capture}

theorem le (h : Captured text low captures high) : low ≤ high := by
  induction h with
  | nil h => exact h
  | @cons low high capture captures _ hlow _ ih =>
    have hfinish : capture.group.offset ≤ capture.finish := Nat.le_add_right _ _
    omega

theorem anti {low' : Nat} (h : Captured text low captures high) (hle : low' ≤ low) :
    Captured text low' captures high := by
  cases h with
  | nil h => exact .nil (Nat.le_trans hle h)
  | cons hcut hlow hrest => exact .cons hcut (Nat.lt_of_le_of_lt hle hlow) hrest

theorem append (hfront : Captured text low captures middle) (hback : Captured text middle later high) :
    Captured text low (captures ++ later) high := by
  induction hfront with
  | nil h => exact hback.anti h
  | cons hcut hlow _ ih => exact .cons hcut hlow (ih hback)

/-- What has been captured stays so as the text is read on. -/
theorem extend {high' : Nat} (h : Captured text low captures high) (hle : high ≤ high') :
    Captured text low captures high' := by
  rw [← List.append_nil captures]
  exact h.append (.nil hle)

/-- Captures lie behind where their chain begins. -/
theorem of_mem (h : Captured text low captures high) :
    ∀ capture ∈ captures, capture.CutFrom text ∧ low < capture.group.offset := by
  induction h with
  | nil => exact fun _ => nofun
  | @cons low high first captures hcut hlow hrest ih =>
    intro capture hcapture
    rcases List.mem_cons.mp hcapture with rfl | hcapture
    · exact ⟨hcut, hlow⟩
    · have hbehind := ih capture hcapture
      have hfinish : first.group.offset ≤ first.finish := Nat.le_add_right _ _
      exact ⟨hbehind.1, by omega⟩

/-- Each capture ends before the next begins. -/
theorem pairwise (h : Captured text low captures high) :
    captures.Pairwise fun a b => a.finish < b.group.offset := by
  induction h with
  | nil => exact .nil
  | @cons low high first captures hcut hlow hrest ih =>
    refine List.pairwise_cons.mpr ⟨?_, ih⟩
    intro capture hcapture
    have hbehind := (hrest.of_mem capture hcapture).2
    omega

end Captured

/-! ## Groups -/

namespace Cursor

variable {rest text : List Char} {c c' : Cursor}

/-- The text up to a place that lies `piece` behind a cursor. -/
theorem On.take_add {piece : List Char} (hc : c.On text) (hrest : c.rest = piece ++ rest) :
    text.take (c.position + piece.length) = text.take c.position ++ piece := by
  obtain ⟨before, htext, hbefore⟩ := hc
  have hbehind : text.take c.position = before := by
    rw [htext, ← hbefore, List.take_left]
  rw [hbehind, htext, hrest, ← List.append_assoc, ← hbefore, ← List.length_append, List.take_left]

/-- A group that is captured behind the token that opens it is cut from the text. -/
theorem On.captured {c₁ c₂ : Cursor} {token : Token} {capture : Capture} {openedAt : Nat}
    (hc : c.On text) (hnext : c.next = (.ok (some token), c₁))
    (hopening : token.isOpening (String.ofList [capture.opening]) = true)
    (htake : c₁.takeGroup capture.opening openedAt =
      (.ok (capture.group.text, capture.group.offset), c₂))
    (hnamed : ∀ name, capture.name? = some name → ∃ front,
      text.take c.position = front ++ name.toList) :
    Captured text c.position [capture] c₂.position := by
  obtain ⟨blanks, lexeme, hcuts⟩ := cuts_of_next hnext
  have hlexeme := (hcuts.eq_of_isOpening hopening).1
  have hlength := hcuts.length_eq
  have hposition := hcuts.position_eq
  have hbehind := hcuts.behind
  rw [hlexeme, List.length_singleton] at hlength
  -- behind it stands the group, up to its closing delimiter
  obtain ⟨hclosed, hoffset, hfinish⟩ := untilClosed_of_takeGroup htake
  rw [String.length_toList] at hfinish
  obtain ⟨closing, hcloses, hrest, -⟩ :=
    closes_of_untilClosed capture.opening_cases (Nesting.depth_top _) hclosed
  have hclosing : closing = capture.closing := hcloses.eq capture.closes
  have hfront : capture.group.offset - 1 = c.position + blanks.length := by omega
  refine .cons ⟨?_, by omega, ?_⟩ (by omega) (.nil ?_)
  · have hpiece : c.rest =
        blanks ++ ((capture.opening :: (capture.group.text.toList ++ [capture.closing])) ++
          c₂.rest) := by
      simp [hcuts.rest_eq, hlexeme, hrest, hclosing]
    rw [hfront]
    exact hc.standsAt_behind hpiece
  · intro name hname
    obtain ⟨front, htake⟩ := hnamed name hname
    refine ⟨front, blanks, ?_, hcuts.blank⟩
    rw [hfront, hc.take_add hcuts.rest_eq, htake, List.append_assoc]
  · show capture.group.offset + capture.group.text.length + 1 ≤ c₂.position
    omega

/-- A name that is found ends where the cursor then stands. -/
theorem On.take_behind_name {token : Token} (hc : c.On text)
    (hnext : c.next = (.ok (some token), c')) (hkind : token.kind = .identifier) :
    ∃ front, text.take c'.position = front ++ token.text.toList := by
  obtain ⟨blanks, lexeme, hcuts⟩ := cuts_of_next hnext
  have hbehind : c'.position = c.position + (blanks ++ lexeme).length := by
    rw [hcuts.behind, hcuts.position_eq, hcuts.length_eq, List.length_append, Nat.add_assoc]
  refine ⟨text.take c.position ++ blanks, ?_⟩
  rw [hbehind, hc.take_add (by rw [hcuts.rest_eq, List.append_assoc]),
    hcuts.lexeme_eq (by simp [hkind]), List.append_assoc]

end Cursor

/-! ## The parser -/

namespace Parser

/-- From `low` up to where the state has come from, the captures are cut from the text. -/
def State.Has (text : List Char) (low : Nat) (captures : List Capture) (s : State) : Prop :=
  ∃ c : Cursor, c.On text ∧ s.From c ∧ Captured text low captures c.position

/-- Whatever has been captured before, the parser captures the groups of its result behind it. -/
def Collects (text : List Char) (x : Parser Tree) : Prop :=
  ∀ {low : Nat} {captures : List Capture} {s : State}, s.Has text low captures →
    Meets x s (fun tree s' => s'.Has text low (captures ++ tree.captures)) fun _ => True

variable {text : List Char} {low : Nat} {captures : List Capture} {setting : Setting}
  {inside : Parser Tree} {below : Option (Parser Tree)} {s s' : State}

namespace State.Has

/-- Reading on captures nothing. -/
theorem step (h : s.Has text low captures) (hs' : s'.From s.cursor) : s'.Has text low captures := by
  obtain ⟨c, hc, hs, hchain⟩ := h
  obtain ⟨piece, hrest, hposition, -⟩ := Cursor.passes_of_next hs
  exact ⟨s.cursor, hc.advance piece hrest hposition, hs', hchain.extend (by omega)⟩

/-- A result without groups leaves the captures as they are. -/
theorem same (h : s.Has text low captures) : s.Has text low (captures ++ []) := by
  rw [List.append_nil]
  exact h

end State.Has

/-- A group that is taken behind the token ahead is captured behind what was captured before. -/
theorem meets_group_of_captured {c : Cursor} {opening : Token} {delimiter : Char}
    {name? : Option String} (hc : c.On text) (hs : s.From c)
    (hchain : Captured text low captures c.position) (hahead : s.ahead = some opening)
    (hopening : opening.isOpening (String.ofList [delimiter]) = true)
    (hdelimiter : ∀ group, (Capture.mk name? group).opening = delimiter)
    (hnamed : ∀ name, name? = some name → ∃ front, text.take c.position = front ++ name.toList) :
    Meets (group setting delimiter opening.position) s
      (fun found s' => s'.Has text low (captures ++ [⟨name?, found⟩])) fun _ => True := by
  have hnext : c.next = (.ok (some opening), s.cursor) := hahead ▸ hs
  refine meets_group (fun _ => trivial) (fun _ _ _ => trivial) ?_
  intro _ raw offset c₂ htake
  refine ⟨fun _ _ _ => trivial, ?_⟩
  intro s' hs'
  have hon := ((hc.of_next hnext).of_takeGroup htake).2
  have hcapture : Captured text c.position [⟨name?, ⟨raw, offset⟩⟩] c₂.position := by
    rw [← hdelimiter ⟨raw, offset⟩] at hopening htake
    exact hc.captured hnext hopening htake hnamed
  exact ⟨c₂, hon, hs', hchain.append hcapture⟩

theorem collects_tooDeep : Collects text tooDeep := by
  intro low captures s hs
  exact meets_peek (meets_fail trivial)

/-- A call holds the group that is taken directly behind its name. -/
theorem meets_name_of_captured {c : Cursor} {token : Token} (hc : c.On text) (hs : s.From c)
    (hchain : Captured text low captures c.position)
    (hnamed : ∃ front, text.take c.position = front ++ token.text.toList) :
    Meets (name setting token) s (fun tree s' => s'.Has text low (captures ++ tree.captures))
      fun _ => True := by
  have hhas : s.Has text low captures := ⟨c, hc, hs, hchain⟩
  refine meets_name (fun _ => hhas.same) ?_
    (meets_nameAlone (fun _ _ => hhas.same) (fun _ => hhas.same) (fun _ => trivial) trivial)
  intro opening hahead hopening _
  refine meets_map (meets_group_of_captured hc hs hchain hahead hopening (fun _ => rfl) ?_)
  rintro name ⟨⟩
  exact hnamed

theorem collects_primary (hinside : Collects text inside) :
    Collects text (primary setting inside) := by
  intro low captures s hhas
  refine meets_primary (fun _ => trivial) ?_ ?_
  · intro token hahead hopening
    obtain ⟨c, hc, hs, hchain⟩ := hhas
    exact meets_map
      (meets_group_of_captured hc hs hchain hahead hopening (fun _ => rfl) (fun _ => nofun))
  · intro token hahead _
    refine meets_next ?_ (fun _ _ _ => trivial)
    intro s' hs'
    have hbehind := hhas.step hs'
    unfold operandFrom
    split
    -- a number, a string, a name, a parenthesis, and what begins no operand
    · exact meets_pure hbehind.same
    · exact meets_pure hbehind.same
    · obtain ⟨c, hc, hs, hchain⟩ := hhas
      have hnext : c.next = (.ok (some token), s.cursor) := hahead ▸ hs
      obtain ⟨piece, hrest, hposition, -⟩ := Cursor.passes_of_next hs
      exact meets_name_of_captured (hc.advance piece hrest hposition) hs'
        (hchain.extend (by omega)) (hc.take_behind_name hnext ‹_›)
    · refine meets_bind (hinside hbehind) ?_
      intro tree s₁ hs₁
      have hclose : Meets (close token.position) s₁
          (fun _ s₂ => s₂.Has text low (captures ++ tree.captures)) fun _ => True :=
        meets_close (fun _ _ _ => trivial) (fun _ => trivial)
          (fun _ _ _ _ hstep => hs₁.step hstep) (fun _ _ _ => trivial)
      exact meets_bind hclose fun _ _ hs₂ => meets_pure hs₂
    all_goals exact meets_fail trivial

theorem collects_operandOver (hinside : Collects text inside)
    (hbelow : ∀ operand, below = some operand → Collects text operand) :
    Collects text (operandOver setting inside below) := by
  intro low captures s hhas
  refine meets_operandOver (fun _ => collects_primary hinside hhas) ?_
  intro op _
  refine ⟨fun _ _ _ => trivial, ?_⟩
  intro s' hs'
  refine ⟨fun _ => trivial, fun _ => ?_⟩
  cases below with
  | none => trivial
  | some operand => exact meets_map (hbelow operand rfl (hhas.step hs'))

theorem meets_climb_of_has {right : Nat → Parser Tree} {least turns : Nat} {left : Tree}
    (hright : ∀ level, Collects text (right level))
    (hhas : s.Has text low (captures ++ left.captures)) :
    Meets (climb right least turns left) s
      (fun tree s' => s'.Has text low (captures ++ tree.captures)) fun _ => True := by
  -- on the turns that are left: each puts the groups of a right operand behind those of the left
  induction turns generalizing left s with
  | zero => exact meets_pure hhas
  | succ turns ih =>
    refine meets_climb_succ (fun _ => hhas) ?_
    intro op _ _
    refine ⟨fun _ _ _ => trivial, ?_⟩
    intro s' hs'
    refine ⟨fun _ => trivial, fun _ => ?_⟩
    refine (hright _ (hhas.step hs')).mono ?_ (fun _ he => he)
    intro operand s'' hs''
    refine ih ?_
    rw [List.append_assoc] at hs''
    exact hs''

theorem collects_stage (n : Nat) :
    Collects text (stage setting n).operand ∧
      ∀ level, Collects text ((stage setting n).expression level) := by
  refine @stage_induction setting (Collects text) (fun _ => Collects text) ?_ ?_ ?_ n
  · intro _
    exact collects_tooDeep
  · intro inside below hinside hbelow
    exact collects_operandOver hinside hbelow
  · intro operand right level hoperand hright low captures s hhas
    refine meets_bind (hoperand hhas) ?_
    intro left s' hs'
    exact meets_climb_of_has hright hs'

end Parser

/-! ## Whole texts -/

/-- The groups of a parsed tree are captured from the text, from left to right. -/
theorem Scope.captured_of_parse {scope : Scope} {text : String} {tree : Tree}
    (h : scope.parse text = .ok tree) :
    ∃ high, Captured text.toList 0 tree.captures high := by
  have hparse : Parser.Ends (scope.parse text)
      (fun tree => ∃ high, Captured text.toList 0 tree.captures high) fun _ => True := by
    refine Parser.parse_meets (fun _ _ _ => trivial) ?_
    intro s hs
    have hhas : s.Has text.toList 0 [] :=
      ⟨Cursor.ofText text, Cursor.on_ofText text, hs, .nil (Nat.le_refl 0)⟩
    refine Parser.meets_whole (((Parser.collects_stage _).2 0 hhas).mono ?_ (fun _ he => he))
    rintro tree s' ⟨c, -, -, hchain⟩
    exact ⟨fun _ => ⟨c.position, hchain⟩, fun _ _ => trivial⟩
  rw [h] at hparse
  exact hparse

/-- Every array and every call of a parsed tree holds exactly what stands between its delimiters, a
call directly behind its name, and no two of them have any of the text in common. -/
theorem Scope.captures_of_parse {scope : Scope} {text : String} {tree : Tree}
    (h : scope.parse text = .ok tree) :
    (∀ capture ∈ tree.captures,
      (text.toList.drop capture.group.offset).take capture.group.text.length =
          capture.group.text.toList ∧
        0 < capture.group.offset ∧
        text.toList[capture.group.offset - 1]? = some capture.opening ∧
        text.toList[capture.finish]? = some capture.closing ∧
        ∀ name, capture.name? = some name → ∃ front blanks,
          text.toList.take (capture.group.offset - 1) = front ++ (name.toList ++ blanks) ∧
            ∀ d ∈ blanks, Text.isBlank d = true) ∧
      tree.captures.Pairwise fun a b => a.finish < b.group.offset := by
  obtain ⟨high, hchain⟩ := captured_of_parse h
  refine ⟨?_, hchain.pairwise⟩
  intro capture hcapture
  obtain ⟨⟨hstands, hpos, hnamed⟩, -⟩ := hchain.of_mem capture hcapture
  have hinside : StandsAt text.toList capture.group.offset capture.group.text.toList := by
    have hpiece : StandsAt (capture.opening :: (capture.group.text.toList ++ [capture.closing])) 1
        capture.group.text.toList := ⟨[capture.opening], [capture.closing], rfl, rfl⟩
    have hwhole := hstands.trans hpiece
    rw [Nat.add_sub_cancel' hpos] at hwhole
    exact hwhole
  refine ⟨?_, hpos, ?_, ?_, hnamed⟩
  · rw [← String.length_toList]
    exact hinside.take_drop
  · have hfirst := hstands.getElem? (Nat.zero_lt_succ _)
    rw [Nat.add_zero] at hfirst
    rw [hfirst]
    rfl
  · have hlast := @StandsAt.getElem? _ _ _ (capture.group.text.length + 1) hstands
      (by simp [String.length_toList])
    have hplace : capture.group.offset - 1 + (capture.group.text.length + 1) = capture.finish := by
      unfold Capture.finish
      omega
    rw [hplace] at hlast
    rw [hlast, List.getElem?_cons_succ,
      List.getElem?_append_right (by simp [String.length_toList])]
    simp [String.length_toList]

/-- A scope with one function. -/
def sumScope : Scope where
  registry := { functionNames := ["sum"] }

/-- The tree of `[1, ']'] = (Sum  ([2]) + [ ])`. -/
def sumTree : Tree :=
  .binary .eq (.array ⟨"1, ']'", 1⟩) (.binary .add (.call "Sum" ⟨"[2]", 18⟩) (.array ⟨" ", 26⟩))

theorem Scope.captures_of_parse_sum :
    sumScope.parse "[1, ']'] = (Sum  ([2]) + [ ])" = .ok sumTree ∧
      ⟨some "Sum", ⟨"[2]", 18⟩⟩ ∈ sumTree.captures ∧
      ("[1, ']'] = (Sum  ([2]) + [ ])".toList.drop 18).take 3 = "[2]".toList ∧
      sumTree.captures.Pairwise fun a b => a.finish < b.group.offset := by
  have hparse : sumScope.parse "[1, ']'] = (Sum  ([2]) + [ ])" = .ok sumTree := by decide +kernel
  have hcall : ⟨some "Sum", ⟨"[2]", 18⟩⟩ ∈ sumTree.captures := .tail _ (.head _)
  have hcaptures := Scope.captures_of_parse hparse
  exact ⟨hparse, hcall, (hcaptures.1 _ hcall).1, hcaptures.2⟩

end Formula
