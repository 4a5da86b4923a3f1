import Formula.Proofs.Nesting
import Formula.Proofs.Segment
import Formula.Proofs.Token.Cursor
import Mathlib.Algebra.GroupWithZero.Nat

/-! # Pieces of argument lists

A piece is a text that is closed in itself and holds no separator on top. Pieces with separators
between them can stand in a group: the group ends where they end, and it is cut into exactly these
pieces, each of which is evaluated where it stands.
-/

namespace Formula

/-! ## Joined pieces -/

namespace Nesting

variable {t : Nesting} {opening : Char} {cs ds : List Char}

theorem eq_top_of_isTop (h : t.isTop = true) : t = top := by
  obtain ⟨brackets, parens, quoted⟩ := t
  simp only [isTop, Bool.and_eq_true, decide_eq_true_eq, Bool.not_eq_true'] at h
  obtain ⟨⟨rfl, rfl⟩, rfl⟩ := h
  rfl

theorem advance_separator (t : Nesting) : t.advance separator = t := by
  cases t with
  | mk brackets parens quoted => cases quoted <;> rfl

/-- Read from `t`, the text never closes an `opening` that stands before it. -/
def Holds (opening : Char) (t : Nesting) (cs : List Char) : Prop :=
  ∀ u ∈ t.trail cs, 0 ≤ u.depth opening

instance (opening : Char) (t : Nesting) (cs : List Char) : Decidable (Holds opening t cs) :=
  inferInstanceAs (Decidable (∀ u ∈ t.trail cs, 0 ≤ u.depth opening))

theorem Holds.append (hfront : Holds opening t cs) (hback : Holds opening (t.advanceAll cs) ds) :
    Holds opening t (cs ++ ds) := by
  intro u hu
  rcases mem_trail_append hu with hu | hu
  · exact hfront u hu
  · exact hback u hu

theorem Holds.cons {c : Char} (hstart : 0 ≤ t.depth opening) (h : Holds opening (t.advance c) cs) :
    Holds opening t (c :: cs) := by
  intro u hu
  rcases List.mem_cons.mp hu with rfl | hu
  · exact hstart
  · exact h u hu

/-- Behind the text the depth is what it has been everywhere. -/
theorem Holds.depth_nonneg (h : Holds opening t cs) : 0 ≤ (t.advanceAll cs).depth opening := by
  have hmem := advanceAll_mem_trail t cs []
  rw [List.append_nil] at hmem
  exact h _ hmem

theorem holds_nil (hstart : 0 ≤ t.depth opening) : Holds opening t [] := by
  intro u hu
  rw [List.mem_singleton.mp hu]
  exact hstart

theorem depth_top (opening : Char) : 0 ≤ top.depth opening := by
  unfold depth
  split
  · exact Int.le_refl 0
  · exact Int.le_refl 0

end Nesting

namespace Segment

/-- Read from `t`, the text has no separator on top. -/
def Whole (t : Nesting) (cs : List Char) : Prop :=
  ∀ before after, cs = before ++ separator :: after → (t.advanceAll before).isTop = false

section Whole

variable {t : Nesting} {c : Char} {cs : List Char}

theorem whole_nil : Whole t [] := by
  intro before after heq
  cases before <;> cases heq

theorem whole_cons_iff :
    Whole t (c :: cs) ↔ (c = separator → t.isTop = false) ∧ Whole (t.advance c) cs := by
  constructor
  · intro h
    constructor
    · rintro rfl
      exact h [] cs rfl
    · intro before after heq
      exact h (c :: before) after (by rw [heq, List.cons_append])
  · rintro ⟨hhead, htail⟩ before after heq
    cases before with
    | nil =>
      cases heq
      exact hhead rfl
    | cons d before =>
      cases heq
      exact htail before after rfl

/-- Decides whether a text has no separator on top. -/
def decideWhole : (t : Nesting) → (cs : List Char) → Decidable (Whole t cs)
  | _, [] => isTrue whole_nil
  | t, c :: cs =>
    have := decideWhole (t.advance c) cs
    decidable_of_iff _ whole_cons_iff.symm

instance (t : Nesting) (cs : List Char) : Decidable (Whole t cs) :=
  decideWhole t cs

end Whole

/-- A text that can stand between the separators of a group of `opening`. -/
structure IsPiece (opening : Char) (cs : List Char) : Prop where
  closed : (Nesting.top.advanceAll cs).isTop = true
  holds : Nesting.Holds opening .top cs
  whole : Whole .top cs

instance (opening : Char) (cs : List Char) : Decidable (IsPiece opening cs) :=
  decidable_of_iff
    ((Nesting.top.advanceAll cs).isTop = true ∧ Nesting.Holds opening .top cs ∧ Whole .top cs)
    ⟨fun h => ⟨h.1, h.2.1, h.2.2⟩, fun h => ⟨h.closed, h.holds, h.whole⟩⟩

variable {opening c : Char} {t : Nesting} {cs : List Char} {pieces : List (List Char)}

theorem IsPiece.behind (h : IsPiece opening cs) : Nesting.top.advanceAll cs = .top :=
  Nesting.eq_top_of_isTop h.closed

/-- Pieces with separators between them are closed as a whole. -/
theorem joined_of_pieces (h : ∀ piece ∈ pieces, IsPiece opening piece) :
    Nesting.top.advanceAll ([separator].intercalate pieces) = .top ∧
      Nesting.Holds opening .top ([separator].intercalate pieces) := by
  induction pieces with
  | nil => exact ⟨rfl, Nesting.holds_nil (Nesting.depth_top opening)⟩
  | cons piece pieces ih =>
    have hpiece := h piece List.mem_cons_self
    cases pieces with
    | nil =>
      rw [List.intercalate_singleton]
      exact ⟨hpiece.behind, hpiece.holds⟩
    | cons next pieces =>
      obtain ⟨hclosed, hholds⟩ := ih fun p hp => h p (List.mem_cons_of_mem _ hp)
      rw [List.intercalate_cons_cons, List.append_assoc, List.singleton_append]
      -- the first piece ends on top, and the separator leaves the nesting there
      constructor
      · rw [Nesting.advanceAll_append, hpiece.behind, Nesting.advanceAll_cons,
          Nesting.advance_separator, hclosed]
      · refine hpiece.holds.append ?_
        rw [hpiece.behind]
        refine .cons (Nesting.depth_top opening) ?_
        rw [Nesting.advance_separator]
        exact hholds

/-! ## Cutting -/

/-- Nothing is cut at the first character of a text without a separator on top. -/
theorem cut_cons_of_whole (h : Whole t (c :: cs)) (rest : List Char) :
    cut t (c :: rest) = (cut (t.advance c) rest).modifyHead (c :: ·) := by
  have hnot : ¬ (c = separator ∧ (t.advance c).isTop = true) := by
    rintro ⟨rfl, htop⟩
    rw [Nesting.advance_separator] at htop
    rw [(whole_cons_iff.mp h).1 rfl] at htop
    cases htop
  simp only [cut, if_neg hnot]

theorem cut_of_whole (h : Whole t cs) : cut t cs = [cs] := by
  induction cs generalizing t with
  | nil => rfl
  | cons c cs ih => rw [cut_cons_of_whole h, ih (whole_cons_iff.mp h).2, List.modifyHead_cons]

/-- The first separator on top ends the first piece. -/
theorem cut_append_separator (h : Whole t cs) (hclosed : (t.advanceAll cs).isTop = true)
    (rest : List Char) : cut t (cs ++ separator :: rest) = cs :: cut (t.advanceAll cs) rest := by
  induction cs generalizing t with
  | nil =>
    have htop : t.isTop = true := hclosed
    simp [cut, htop, Nesting.advance_separator]
  | cons c cs ih =>
    rw [List.cons_append, cut_cons_of_whole h, ih (whole_cons_iff.mp h).2 hclosed,
      List.modifyHead_cons, Nesting.advanceAll_cons]

theorem intercalate_cons_of_ne_nil (piece : List Char) (hne : pieces ≠ []) :
    [separator].intercalate (piece :: pieces) =
      piece ++ separator :: [separator].intercalate pieces := by
  cases pieces with
  | nil => exact absurd rfl hne
  | cons next pieces => rw [List.intercalate_cons_cons, List.append_assoc, List.singleton_append]

/-- Read from `t`, the pieces are those between the separators on top: none of them has such a
separator, and all but the last end on top. -/
inductive Division : Nesting → List (List Char) → Prop where
  | last {t : Nesting} {piece : List Char} (h : Whole t piece) : Division t [piece]
  | more {t : Nesting} {piece : List Char} {rest : List (List Char)} (h : Whole t piece)
      (hclosed : (t.advanceAll piece).isTop = true) (hrest : Division .top rest) :
      Division t (piece :: rest)

theorem Division.ne_nil (h : Division t pieces) : pieces ≠ [] := by
  cases h <;> exact List.cons_ne_nil _ _

/-- A character that is no separator on top becomes the first of the first piece. -/
theorem Division.cons (hnot : ¬ (c = separator ∧ (t.advance c).isTop = true))
    (h : Division (t.advance c) pieces) : Division t (pieces.modifyHead (c :: ·)) := by
  have hwhole : ∀ {piece}, Whole (t.advance c) piece → Whole t (c :: piece) := by
    intro piece hpiece
    refine whole_cons_iff.mpr ⟨?_, hpiece⟩
    rintro rfl
    rw [Nesting.advance_separator] at hnot
    exact Bool.eq_false_iff.mpr fun htop => hnot ⟨rfl, htop⟩
  cases h with
  | last h => exact .last (hwhole h)
  | more h hclosed hrest => exact .more (hwhole h) hclosed hrest

/-- What a text is cut into is its division. Behind a cut the nesting is on top, as it is at the start
of a text. -/
theorem division_cut (t : Nesting) (cs : List Char) : Division t (cut t cs) := by
  induction cs generalizing t with
  | nil => exact .last whole_nil
  | cons c cs ih =>
    simp only [cut]
    split
    · rename_i hseparates
      obtain ⟨rfl, htop⟩ := hseparates
      have hrest := ih (t.advance separator)
      rw [Nesting.advance_separator] at htop hrest ⊢
      obtain rfl := Nesting.eq_top_of_isTop htop
      exact .more whole_nil rfl hrest
    · rename_i hnot
      exact (ih _).cons hnot

/-- A text is cut into its division. -/
theorem Division.cut_eq (h : Division t pieces) :
    cut t ([separator].intercalate pieces) = pieces := by
  induction h with
  | last h => rw [List.intercalate_singleton, cut_of_whole h]
  | more h hclosed hrest ih =>
    rw [intercalate_cons_of_ne_nil _ hrest.ne_nil, cut_append_separator h hclosed,
      Nesting.eq_top_of_isTop hclosed, ih]

/-- Pieces with separators between them are the division of the whole. -/
theorem division_of_pieces (hne : pieces ≠ []) (h : ∀ piece ∈ pieces, IsPiece opening piece) :
    Division .top pieces := by
  induction pieces with
  | nil => exact absurd rfl hne
  | cons piece pieces ih =>
    have hpiece := h piece List.mem_cons_self
    cases pieces with
    | nil => exact .last hpiece.whole
    | cons next pieces =>
      have hrest := ih (List.cons_ne_nil _ _) fun p hp => h p (List.mem_cons_of_mem _ hp)
      exact .more hpiece.whole hpiece.closed hrest

/-- A list of joined texts has these texts as its segments. -/
theorem all_intercalate {texts : List String} (hne : ",".intercalate texts ≠ "")
    (h : ∀ text ∈ texts, IsPiece opening text.toList) :
    all (",".intercalate texts) = place 0 (texts.map String.toList) := by
  have hpieces : ∀ piece ∈ texts.map String.toList, IsPiece opening piece := by
    intro piece hpiece
    obtain ⟨text, htext, rfl⟩ := List.mem_map.mp hpiece
    exact h text htext
  have htexts : texts.map String.toList ≠ [] := by
    intro hnil
    rw [List.map_eq_nil_iff.mp hnil] at hne
    exact hne String.intercalate_nil
  have hraw : (",".intercalate texts).toList = [separator].intercalate (texts.map String.toList) :=
    String.toList_intercalate
  have hfull : (",".intercalate texts).isEmpty = false := by
    rw [Bool.eq_false_iff, ne_eq, String.isEmpty_iff]
    exact hne
  unfold all
  rw [hfull, hraw, (division_of_pieces htexts hpieces).cut_eq]
  rfl

end Segment

/-! ## Capturing -/

namespace Cursor

variable {opening closing : Char} {t : Nesting} {cs : List Char}

theorem untilClosed_of_holds (h : Nesting.Holds opening t cs) (rest : List Char) :
    untilClosed opening t (cs ++ rest) =
      (untilClosed opening (t.advanceAll cs) rest).map fun (inside, rest) =>
        (cs ++ inside, rest) := by
  induction cs generalizing t with
  | nil => simp
  | cons c cs ih =>
    have hhere : ¬ (t.advance c).depth opening < 0 := by
      have hmem : t.advance c ∈ t.trail (c :: cs) := by
        cases cs <;> simp [Nesting.trail]
      exact Int.not_lt.mpr (h _ hmem)
    have hrest : Nesting.Holds opening (t.advance c) cs :=
      fun u hu => h u (List.mem_cons_of_mem _ hu)
    simp only [List.cons_append, untilClosed, if_neg hhere, ih hrest, Option.map_map,
      Nesting.advanceAll_cons]
    rfl

/-- A group ends before the first character at which the depth falls below zero. -/
theorem untilClosed_eq_some_iff {inside rest : List Char} (hstart : 0 ≤ t.depth opening) :
    untilClosed opening t cs = some (inside, rest) ↔
      ∃ last, cs = inside ++ last :: rest ∧ Nesting.Holds opening t inside ∧
        ((t.advanceAll inside).advance last).depth opening < 0 := by
  constructor
  · intro h
    induction cs generalizing t inside with
    | nil => cases h
    | cons c cs ih =>
      simp only [untilClosed] at h
      split at h
      · rename_i hclosed
        cases h
        exact ⟨c, rfl, Nesting.holds_nil hstart, hclosed⟩
      · rename_i hopen
        obtain ⟨⟨inside', rest'⟩, hrest, heq⟩ := Option.map_eq_some_iff.mp h
        cases heq
        obtain ⟨last, hcs, hholds, hclosed⟩ := ih (Int.not_lt.mp hopen) hrest
        exact ⟨last, by rw [hcs]; rfl, .cons hstart hholds, hclosed⟩
  · rintro ⟨last, rfl, hholds, hclosed⟩
    simp only [untilClosed_of_holds hholds, untilClosed, if_pos hclosed, Option.map_some,
      List.append_nil]

/-- A depth falls below zero outside strings. -/
theorem quoted_of_depth_lt {c : Char} (hstart : 0 ≤ t.depth opening)
    (h : (t.advance c).depth opening < 0) : (t.advance c).quoted = false := by
  unfold Nesting.depth Nesting.advance at *
  grind

/-- The delimiter that closes `opening`. -/
def Closes (opening closing : Char) : Prop :=
  (opening = '[' ∧ closing = ']') ∨ (opening = '(' ∧ closing = ')')

/-- One delimiter closes another. -/
theorem Closes.eq {closing closing' : Char} (h : Closes opening closing)
    (h' : Closes opening closing') : closing = closing' := by
  rcases h with ⟨rfl, rfl⟩ | ⟨rfl, rfl⟩
  · rcases h' with ⟨-, rfl⟩ | ⟨hopening, -⟩
    · rfl
    · cases hopening
  · rcases h' with ⟨hopening, -⟩ | ⟨-, rfl⟩
    · cases hopening
    · rfl

/-- A depth falls below zero at the delimiter that closes, outside strings. -/
theorem closes_of_depth_lt {c : Char} (hopening : opening = '[' ∨ opening = '(')
    (hstart : 0 ≤ t.depth opening) (h : (t.advance c).depth opening < 0) :
    Closes opening c ∧ t.quoted = false := by
  have hcases : (c = ']' ∧ opening = '[' ∨ c = ')' ∧ opening = '(') ∧ t.quoted = false := by
    rcases hopening with rfl | rfl
    · simp only [Nesting.depth, if_true] at hstart h
      unfold Nesting.advance at h
      grind
    · simp only [Nesting.depth] at hstart h
      unfold Nesting.advance at h
      grind
  obtain ⟨⟨rfl, rfl⟩ | ⟨rfl, rfl⟩, hquoted⟩ := hcases
  · exact ⟨Or.inl ⟨rfl, rfl⟩, hquoted⟩
  · exact ⟨Or.inr ⟨rfl, rfl⟩, hquoted⟩

/-- The text of a group ends before the delimiter that closes it, outside strings. -/
theorem closes_of_untilClosed {inside rest : List Char} (hopening : opening = '[' ∨ opening = '(')
    (hstart : 0 ≤ t.depth opening) (h : untilClosed opening t cs = some (inside, rest)) :
    ∃ closing, Closes opening closing ∧ cs = inside ++ closing :: rest ∧
      (t.advanceAll inside).quoted = false := by
  obtain ⟨closing, hcs, hholds, hclosed⟩ := (untilClosed_eq_some_iff hstart).mp h
  obtain ⟨hcloses, hquoted⟩ := closes_of_depth_lt hopening hholds.depth_nonneg hclosed
  exact ⟨closing, hcloses, hcs, hquoted⟩

/-- A text that does not close what stands before it holds it open. -/
theorem holds_of_untilClosed_none (hstart : 0 ≤ t.depth opening)
    (h : untilClosed opening t cs = none) : Nesting.Holds opening t cs := by
  induction cs generalizing t with
  | nil => exact Nesting.holds_nil hstart
  | cons c cs ih =>
    simp only [untilClosed] at h
    split at h
    · cases h
    · rename_i hopen
      exact .cons hstart (ih (Int.not_lt.mp hopen) (Option.map_eq_none_iff.mp h))

/-- A group of joined texts ends behind them. -/
theorem takeGroup_intercalate {texts : List String} (hcloses : Closes opening closing)
    (h : ∀ text ∈ texts, Segment.IsPiece opening text.toList) (openedAt position : Nat) :
    takeGroup opening openedAt ⟨(",".intercalate texts).toList ++ [closing], position⟩ =
      (.ok (",".intercalate texts, position),
        ⟨[], position + (",".intercalate texts).length + 1⟩) := by
  have hpieces : ∀ piece ∈ texts.map String.toList, Segment.IsPiece opening piece := by
    intro piece hpiece
    obtain ⟨text, htext, rfl⟩ := List.mem_map.mp hpiece
    exact h text htext
  have hraw : (",".intercalate texts).toList = [separator].intercalate (texts.map String.toList) :=
    String.toList_intercalate
  obtain ⟨hclosed, hholds⟩ := Segment.joined_of_pieces hpieces
  rw [← hraw] at hclosed hholds
  -- behind the texts the nesting is on top, so the delimiter closes the group
  have hend : untilClosed opening .top [closing] = some ([], []) := by
    rcases hcloses with ⟨rfl, rfl⟩ | ⟨rfl, rfl⟩
    · rfl
    · rfl
  have htake := untilClosed_of_holds hholds [closing]
  rw [hclosed, hend, Option.map_some] at htake
  simp only [takeGroup, htake, List.append_nil, String.ofList_toList, String.length_toList]

end Cursor

/-! ## Evaluating -/

section Evaluating

variable {σ α : Type} (evaluate : String → Option Int → Recorded σ Value) (id : Option Int)

/-- Evaluated one after another, the texts have these values. -/
inductive Evaluates : List String → σ → List Value → σ → Prop where
  | nil {r : σ} : Evaluates [] r [] r
  | cons {text : String} {texts : List String} {value : Value} {values : List Value} {r r' r'' : σ}
      (h : evaluate text id r = (.ok value, r')) (hrest : Evaluates texts r' values r'') :
      Evaluates (text :: texts) r (value :: values) r''

/-- The computation evaluates the texts, which stand behind `start` characters with one character
between them, and finishes on their values. It fails with the first that fails, the error moved to
where that text stands. -/
def InOrder (texts : List String) (start : Nat) (whole : Recorded σ α)
    (finish : List Value → Recorded σ α) : Prop :=
  ∀ r, (∃ values r', Evaluates evaluate id texts r values r' ∧ whole r = finish values r') ∨
    ∃ before text after values r' e r'', texts = before ++ text :: after ∧
      Evaluates evaluate id before r values r' ∧ evaluate text id r' = (.error e, r'') ∧
        whole r =
          (.error (e.shifted (start + (before.map fun text => text.length + 1).sum)), r'')

variable {evaluate id}

theorem InOrder.shifted {texts : List String} {start : Nat} {whole : Recorded σ (List Value)}
    (h : InOrder evaluate id texts start whole pure) (distance : Nat) :
    InOrder evaluate id texts (distance + start) (whole.shifted distance) pure := by
  intro r
  rcases h r with ⟨values, r', hvalues, hwhole⟩ |
    ⟨before, text, after, values, r', e, r'', htexts, hvalues, herror, hwhole⟩
  · left
    refine ⟨values, r', hvalues, ?_⟩
    simp only [Recorded.shifted, hwhole]
    rfl
  · right
    refine ⟨before, text, after, values, r', e, r'', htexts, hvalues, herror, ?_⟩
    have hmoved : whole.shifted distance r =
        (.error ((e.shifted (start + (before.map fun text => text.length + 1).sum)).shifted distance),
          r'') := by
      simp only [Recorded.shifted, hwhole]
      rfl
    rw [hmoved, Error.shifted_shifted, Nat.add_comm _ distance, Nat.add_assoc]

theorem InOrder.bind {texts : List String} {start : Nat} {whole : Recorded σ (List Value)}
    (h : InOrder evaluate id texts start whole pure) (finish : List Value → Recorded σ α) :
    InOrder evaluate id texts start (whole >>= finish) finish := by
  intro r
  rcases h r with ⟨values, r', hvalues, hwhole⟩ |
    ⟨before, text, after, values, r', e, r'', htexts, hvalues, herror, hwhole⟩
  · exact Or.inl ⟨values, r', hvalues, Recorded.bind_of_ok hwhole⟩
  · exact Or.inr ⟨before, text, after, values, r', e, r'', htexts, hvalues, herror,
      Recorded.bind_of_error hwhole⟩

/-- Segments that are placed one behind the other are evaluated in order. -/
theorem inOrder_place (texts : List String) (start : Nat) :
    InOrder evaluate id texts start
      (evaluateSegments evaluate id (Segment.place start (texts.map String.toList))) pure := by
  -- on the texts, wherever the first of them stands
  induction texts generalizing start with
  | nil => exact fun r => Or.inl ⟨[], r, .nil, rfl⟩
  | cons text texts ih =>
    intro r
    have hsegment : String.ofList text.toList = text := String.ofList_toList
    simp only [List.map_cons, Segment.place, evaluateSegments, hsegment, String.length_toList]
    rcases hrun : evaluate text id r with ⟨outcome, r'⟩
    cases outcome with
    | error e =>
      -- the first text fails, and nothing is evaluated behind it
      right
      refine ⟨[], text, texts, [], r, e, r', rfl, .nil, hrun, ?_⟩
      refine Recorded.bind_of_error ?_
      simp only [Recorded.shifted, hrun]
      rfl
    | ok value =>
      have hfirst : (evaluate text id).shifted start r = (.ok value, r') := by
        simp only [Recorded.shifted, hrun]
        rfl
      rw [Recorded.bind_of_ok hfirst]
      rcases ih (start + text.length + 1) r' with ⟨values, r'', hvalues, hwhole⟩ |
        ⟨before, failing, after, values, r'', e, r''', htexts, hvalues, herror, hwhole⟩
      · left
        refine ⟨value :: values, r'', .cons hrun hvalues, ?_⟩
        rw [Recorded.bind_of_ok hwhole]
      · right
        refine ⟨text :: before, failing, after, value :: values, r'', e, r''', ?_,
          .cons hrun hvalues, herror, ?_⟩
        · rw [htexts, List.cons_append]
        · rw [Recorded.bind_of_error hwhole, List.map_cons, List.sum_cons]
          simp only [Nat.add_assoc]

end Evaluating

end Formula
