import Formula.Proofs.Likeness
import Formula.Proofs.Token.Seam
import Formula.Proofs.Dialogue

/-! # Blanks beside delimiters

A text that has a value has the same value with one blank more beside a delimiter, and comes to it by
the same questions. The blank is passed over between two tokens, or it belongs to the text of a group,
and there to one of its segments, which is evaluated as a text with one blank more, or none.
-/

namespace Formula

/-- The texts of the groups are the same but for one blank, which an empty group has no place for: it
would have a segment then. -/
def Group.Spread (group group' : Group) : Prop :=
  group.text = group'.text ∨
    (group.text ≠ "" ∧ Loosened group.text.toList group'.text.toList)

namespace Cursor

variable {c c' c₁ c₁' c₂ : Cursor} {token token' : Token}

/-- A token is found with a blank more in the text ahead, and the text behind it has the blank, if the
token does not stand behind it. -/
theorem next_of_spread (h : Spread c.rest c'.rest) (hnext : c.next = (.ok (some token), c₁)) :
    ∃ token' c₁', c'.next = (.ok (some token'), c₁') ∧ token'.kind = token.kind ∧
      token'.text = token.text ∧ Spread c₁.rest c₁'.rest := by
  rcases h with hrest | ⟨front, back, blank, hblank, hseam, hrest, hrest'⟩
  · obtain ⟨token', c₁', hnext', hkind, htext, hbehind⟩ := next_of_rest_eq hrest hnext
    exact ⟨token', c₁', hnext', hkind, htext, .inl hbehind⟩
  · obtain ⟨token', c₁', hnext', hkind, htext, hbehind⟩ :=
      next_of_seam hseam hblank hrest hrest' hnext
    refine ⟨token', c₁', hnext', hkind, htext, hbehind.imp id ?_⟩
    rintro ⟨blanks, lexeme, more, hcuts, rfl, hmore, hmore'⟩
    exact ⟨more, back, blank, hblank, hseam.behind hcuts.unquoted, hmore, hmore'⟩

theorem next_none_of_spread (h : Spread c.rest c'.rest) (hnext : c.next = (.ok none, c₁)) :
    ∃ c₁', c'.next = (.ok none, c₁') := by
  rcases h with hrest | ⟨front, back, blank, hblank, -, hrest, hrest'⟩
  · have hblanks := blank_of_next_none hnext
    rw [hrest] at hblanks
    exact ⟨_, next_of_blank hblanks c'.position⟩
  · exact next_none_of_seam hblank hrest hrest' hnext

/-- Where a text stands does not matter for the group at its head. -/
theorem takeGroup_of_rest_eq {opening : Char} {openedAt offset : Nat} {text : String}
    (hrest : c.rest = c'.rest) (h : c.takeGroup opening openedAt = (.ok (text, offset), c₁))
    (openedAt' : Nat) :
    ∃ offset' c₁', c'.takeGroup opening openedAt' = (.ok (text, offset'), c₁') ∧
      c₁.rest = c₁'.rest := by
  have hclosed := (untilClosed_of_takeGroup h).1
  rw [hrest] at hclosed
  have htake := takeGroup_of_untilClosed hclosed openedAt'
  rw [String.ofList_toList] at htake
  exact ⟨_, _, htake, rfl⟩

/-- A group is captured with a blank more in the text ahead, in the group or behind it. -/
theorem takeGroup_of_spread {opening : Char} {openedAt offset : Nat} {text : String}
    (h : Spread c.rest c'.rest) (hnext : c.next = (.ok (some token), c₁))
    (hnext' : c'.next = (.ok (some token'), c₁'))
    (hopening : token.isOpening (String.ofList [opening]) = true)
    (htake : c₁.takeGroup opening openedAt = (.ok (text, offset), c₂)) (openedAt' : Nat) :
    ∃ text' offset' c₂', c₁'.takeGroup opening openedAt' = (.ok (text', offset'), c₂') ∧
      Group.Spread ⟨text, offset⟩ ⟨text', offset'⟩ ∧ Spread c₂.rest c₂'.rest := by
  have hsame : c₁.rest = c₁'.rest → ∃ text' offset' c₂',
      c₁'.takeGroup opening openedAt' = (.ok (text', offset'), c₂') ∧
        Group.Spread ⟨text, offset⟩ ⟨text', offset'⟩ ∧ Spread c₂.rest c₂'.rest := by
    intro hrest
    obtain ⟨offset', c₂', htake', hbehind⟩ := takeGroup_of_rest_eq hrest htake openedAt'
    exact ⟨text, offset', c₂', htake', .inl rfl, .inl hbehind⟩
  rcases h with hrest | ⟨front, back, blank, hblank, hseam, hrest, hrest'⟩
  · obtain ⟨_, _, hnext'', -, -, hbehind⟩ := next_of_rest_eq hrest hnext
    cases hnext'.symm.trans hnext''
    exact hsame hbehind
  obtain ⟨_, _, hnext'', -, -, hbehind⟩ := next_of_seam hseam hblank hrest hrest' hnext
  cases hnext'.symm.trans hnext''
  rcases hbehind with hbehind | ⟨blanks, lexeme, more, hcuts, rfl, hmore, hmore'⟩
  · exact hsame hbehind
  -- the delimiter that opens the group stands before the blank
  obtain ⟨hlexeme, hbracket⟩ := hcuts.eq_of_isOpening hopening
  have hinner := hseam.behind hcuts.unquoted
  have hclosed := (untilClosed_of_takeGroup htake).1
  rw [hmore] at hclosed
  rcases untilClosed_of_seam hbracket hinner hblank hclosed with
    ⟨after, hclosed', hafter, hseam'⟩ | ⟨inside, closing, hclosed', htext, hback, hcloses⟩
  · rw [← hmore'] at hclosed'
    have htake' := takeGroup_of_untilClosed hclosed' openedAt'
    rw [String.ofList_toList] at htake'
    exact ⟨_, _, _, htake', .inl rfl, .inr ⟨after, back, blank, hblank, hseam', hafter, rfl⟩⟩
  · rw [← hmore'] at hclosed'
    refine ⟨_, _, _, takeGroup_of_untilClosed hclosed' openedAt', .inr ⟨?_, ?_⟩, .inl rfl⟩
    · -- nothing but the blank would stand between the two delimiters
      rintro rfl
      obtain ⟨rfl, rfl⟩ := List.append_eq_nil_iff.mp htext.symm
      refine hseam.apart opening ?_ closing ?_ ?_
      · simp [hlexeme]
      · simp [hback]
      · rcases hcloses with ⟨rfl, rfl⟩ | ⟨rfl, rfl⟩ <;> decide
    · refine ⟨more, inside, blank, hblank, ?_, htext, String.toList_ofList⟩
      rw [hback] at hinner
      exact @Seam.inner more inside [] _ hinner rfl

end Cursor

/-! ## Texts -/

/-- Compares the parser on a text with the parser on the text with one blank more. -/
def Parser.Pairing.spread (names : Names) : Parser.Pairing names where
  Strict := False
  SameName := (· = ·)
  SameGroup := Group.Spread
  Near c c' := Spread c.rest c'.rest
  Ended _ := False
  indistinct := names.indistinct_eq
  loose := False.elim
  position_eq := False.elim
  next_ok := by
    intro c c' c₁ ahead h hnext
    cases ahead with
    | some token =>
      obtain ⟨token', c₁', hnext', hkind, htext, hbehind⟩ := Cursor.next_of_spread h hnext
      exact ⟨_, c₁', hnext', .token ⟨hkind.symm, htext.symm, fun _ => htext.symm, False.elim⟩,
        fun _ => hbehind⟩
    | none =>
      obtain ⟨c₁', hnext'⟩ := Cursor.next_none_of_spread h hnext
      exact ⟨_, c₁', hnext', .none, fun hread => hread.elim (absurd rfl) False.elim⟩
  next_error := False.elim
  takeGroup_ok := Cursor.takeGroup_of_spread
  takeGroup_error := False.elim

/-- Compares a computation with one that does the same where the first succeeds. -/
def Recorded.Comparison.success (σ : Type) : Recorded.Comparison σ where
  Holds x y := ∀ r a r', x r = (.ok a, r') → y r = (.ok a, r')
  ofExcept _ _ _ _ h := h
  bind := by
    intro α β x y f g hx hf r b r' h
    rcases hr : x r with ⟨outcome, r₁⟩
    cases outcome with
    | error e =>
      rw [bind_of_error hr] at h
      cases h
    | ok a =>
      rw [bind_of_ok hr] at h
      rw [bind_of_ok (hx r a r₁ hr)]
      exact hf a r₁ b r' h
  shifted distance hx r a r' h := shifted_eq_ok.mpr (hx r a r' (shifted_eq_ok.mp h))

theorem Recorded.Comparison.moves_success (distance distance' : Nat) :
    (success History).Moves distance distance' :=
  fun hx r a r' h => shifted_eq_ok.mpr (hx r a r' (shifted_eq_ok.mp h))

namespace Scope

variable {scope : Scope} {id : Option Int}

/-- Segments of groups that are the same but for a blank are, too. -/
theorem forall₂_of_spread {group group' : Group} (h : group.Spread group') :
    List.Forall₂ (fun segment segment' : Segment =>
      Spread segment.text.toList segment'.text.toList) (Segment.all group.text)
      (Segment.all group'.text) := by
  rcases h with htext | ⟨hne, hloosened⟩
  · rw [htext]
    exact List.forall₂_same.mpr fun _ _ => .inl rfl
  · exact Segment.spread_all hne hloosened

/-- A text with a value has it with a blank more. -/
theorem evaluateText_of_spread {text text' : String} (h : Spread text.toList text'.toList) :
    (Recorded.Comparison.success History).Holds (scope.evaluateText text id)
      (scope.evaluateText text' id) := by
  refine Recorded.Comparison.evaluateText_of_alike _
    (fun text text' => Spread text.toList text'.toList) Group.Spread (fun _ => True)
    (fun _ _ => trivial) ?_ ?_ ?_ trivial h
  · intro group group' hgroup fault r a r' hfails
    cases hfails
  · intro group group' hgroup
    refine ⟨Recorded.Comparison.moves_success _ _, (forall₂_of_spread hgroup).imp ?_⟩
    intro segment segment' hsegment
    exact ⟨hsegment, Recorded.Comparison.moves_success _ _⟩
  · intro scope elements elements' _ hgroups text text' htext
    have hparse := @Parser.Pairing.parse_together _
      (.spread (scope.registry.names scope.mode)) scope.depth text text' (fun _ => not_false) htext
    refine Recorded.Comparison.evaluateTextWith_of_alike _ ?_ ?_ hgroups
      (hparse.mono (fun _ hsame => hsame) ?_)
    · rintro name _ rfl r a r' hasked
      exact hasked
    · rintro name _ arguments rfl r a r' hasked
      exact hasked
    · intro e _ r a r' hfails
      cases hfails

/-- A text with a value has it with a blank more beside a delimiter that stands outside quotes, but
not between two delimiters with nothing between them. The questions are the same. -/
theorem evaluateText_of_blank {front back : String} {blank : Char} {history : History}
    {value : Value} (hblank : Text.isBlank blank = true)
    (hquoted : (Nesting.top.advanceAll front.toList).quoted = false)
    (hbeside : (∃ d ∈ front.toList.getLast?, IsDelimiter d) ∨
      ∃ d ∈ back.toList.head?, IsDelimiter d)
    (hapart : ∀ c ∈ front.toList.getLast?, ∀ d ∈ back.toList.head?,
      ¬ (c ∈ ['(', '['] ∧ d ∈ [')', ']']))
    (h : (scope.evaluateText (front ++ back) id history).1 = .ok value) :
    scope.evaluateText (front.push blank ++ back) id history =
      scope.evaluateText (front ++ back) id history := by
  have hspread : Spread (front ++ back).toList (front.push blank ++ back).toList := by
    refine .inr ⟨front.toList, back.toList, blank, hblank, ⟨hquoted, .inr (.inr hbeside), hapart⟩,
      String.toList_append, ?_⟩
    simp
  rcases hrun : scope.evaluateText (front ++ back) id history with ⟨outcome, history'⟩
  rw [hrun] at h
  simp only at h
  subst h
  exact evaluateText_of_spread hspread history value history' hrun

theorem evaluateText_of_blank_tariff :
    (evaluateText { tariffScope with resolvers := tariffResolvers } "[Round(rate), rate]"
        none []).1 = .ok (.array [.text "new", .text "new"]) ∧
      evaluateText { tariffScope with resolvers := tariffResolvers } "[Round\t(rate), rate]" none [] =
        evaluateText { tariffScope with resolvers := tariffResolvers } "[Round(rate), rate]"
          none [] := by
  have htext : "[Round" ++ "(rate), rate]" = "[Round(rate), rate]" := by decide
  have hspaced : "[Round".push '\t' ++ "(rate), rate]" = "[Round\t(rate), rate]" := by decide
  have hvalue : (evaluateText { tariffScope with resolvers := tariffResolvers }
      "[Round(rate), rate]" none []).1 = .ok (.array [.text "new", .text "new"]) := by
    decide +kernel
  have hapart : ∀ c ∈ "[Round".toList.getLast?, ∀ d ∈ "(rate), rate]".toList.head?,
      ¬ (c ∈ ['(', '['] ∧ d ∈ [')', ']']) := by
    rintro c hlast d - ⟨hopening, -⟩
    obtain rfl : 'd' = c := Option.some.inj hlast
    revert hopening
    decide
  refine ⟨hvalue, ?_⟩
  rw [← htext] at hvalue ⊢
  rw [← hspaced]
  exact evaluateText_of_blank (by decide) (by decide)
    (.inr ⟨'(', by decide, List.mem_cons_self⟩) hapart hvalue

end Scope

end Formula
