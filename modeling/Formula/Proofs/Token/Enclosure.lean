import Formula.Proofs.Token.Seam
import Formula.Proofs.Tree.Places
import Mathlib.Logic.Relation

/-! # Groups are what their delimiters enclose

Tokens may be found and groups captured in any order: each call ends outside strings, since a token
holds its strings whole and a group ends at a delimiter that counts. So a count that begins anew
where the cursor stands has the same strings as the one from the start of the text. A group is
captured if the text ahead begins with a stretch that the delimiters enclose, and there is one such
stretch at most.
-/

namespace Formula

/-! ## Enclosed stretches -/

namespace Nesting

variable {t : Nesting} {opening : Char} {cs : List Char}

/-- The stretch may stand between `opening` and the delimiter that closes it: it closes its strings,
and of these delimiters it closes what it opens and no other. -/
structure Encloses (opening : Char) (inside : List Char) : Prop where
  unquoted : (top.advanceAll inside).quoted = false
  depth_eq : (top.advanceAll inside).depth opening = 0
  depth_nonneg : ∀ front, front <+: inside → 0 ≤ (top.advanceAll front).depth opening

/-- The trail of a stretch is where its beginnings lead. -/
theorem mem_trail_iff {u : Nesting} :
    u ∈ t.trail cs ↔ ∃ front, front <+: cs ∧ u = t.advanceAll front := by
  constructor
  · intro hu
    induction cs generalizing t with
    | nil => exact ⟨[], List.prefix_rfl, List.mem_singleton.mp hu⟩
    | cons c cs ih =>
      rcases List.mem_cons.mp hu with rfl | hu
      · exact ⟨[], List.nil_prefix, rfl⟩
      · obtain ⟨front, hfront, heq⟩ := ih hu
        exact ⟨c :: front, List.cons_prefix_cons.mpr ⟨rfl, hfront⟩, heq⟩
  · rintro ⟨front, ⟨back, rfl⟩, rfl⟩
    exact advanceAll_mem_trail t front back

theorem holds_iff :
    Holds opening t cs ↔ ∀ front, front <+: cs → 0 ≤ (t.advanceAll front).depth opening := by
  constructor
  · intro h front hfront
    exact h _ (mem_trail_iff.mpr ⟨front, hfront, rfl⟩)
  · intro h u hu
    obtain ⟨front, hfront, rfl⟩ := mem_trail_iff.mp hu
    exact h front hfront

/-- A delimiter closes what stands before a stretch if the stretch has closed its own. -/
theorem depth_advance_neg_iff {closing : Char} (hcloses : Cursor.Closes opening closing)
    (hstart : 0 ≤ t.depth opening) :
    (t.advance closing).depth opening < 0 ↔ t.quoted = false ∧ t.depth opening = 0 := by
  rcases hcloses with ⟨rfl, rfl⟩ | ⟨rfl, rfl⟩
  · simp only [depth, if_true] at hstart ⊢
    unfold advance
    grind [quote]
  · simp only [depth] at hstart ⊢
    unfold advance
    grind [quote]

end Nesting

/-! ## Capturing -/

namespace Cursor

variable {text : String} {c c' : Cursor} {opening closing : Char} {cs inside rest : List Char}

/-- What is captured is what the delimiters enclose. -/
theorem untilClosed_iff_encloses (hcloses : Closes opening closing) :
    untilClosed opening .top cs = some (inside, rest) ↔
      cs = inside ++ closing :: rest ∧ Nesting.Encloses opening inside := by
  have htop := Nesting.depth_top opening
  rw [untilClosed_eq_some_iff htop]
  constructor
  · rintro ⟨last, rfl, hholds, hclosed⟩
    have hdepth := hholds.depth_nonneg
    have hopening : opening = '[' ∨ opening = '(' := hcloses.imp And.left And.left
    obtain rfl := (closes_of_depth_lt hopening hdepth hclosed).1.eq hcloses
    obtain ⟨hquoted, hzero⟩ := (Nesting.depth_advance_neg_iff hcloses hdepth).mp hclosed
    exact ⟨rfl, hquoted, hzero, Nesting.holds_iff.mp hholds⟩
  · rintro ⟨rfl, hencloses⟩
    have hholds := Nesting.holds_iff.mpr hencloses.depth_nonneg
    refine ⟨closing, rfl, hholds, ?_⟩
    exact (Nesting.depth_advance_neg_iff hcloses hholds.depth_nonneg).mpr
      ⟨hencloses.unquoted, hencloses.depth_eq⟩

/-! ## Calls that succeed -/

/-- What a call of `next` passes over closes its strings. -/
theorem unquoted_of_next {ahead : Option Token} {piece : List Char} (h : c.next = (.ok ahead, c'))
    (hrest : c.rest = piece ++ c'.rest) : Nesting.Unquoted piece := by
  cases ahead with
  | none =>
    -- only blanks are left
    have hblank : ∀ d ∈ piece, Text.isBlank d = true := by
      intro d hd
      exact blank_of_next_none h d (hrest ▸ List.mem_append_left _ hd)
    rw [Nesting.Unquoted, (passes_of_blank hblank (Int.le_refl Nesting.top.parens)).behind]
    rfl
  | some token =>
    obtain ⟨blanks, lexeme, hcuts⟩ := cuts_of_next h
    have hpiece : piece = blanks ++ lexeme := by
      refine List.append_cancel_right (hrest.symm.trans ?_)
      rw [hcuts.rest_eq, List.append_assoc]
    rw [hpiece]
    exact hcuts.unquoted

/-- So does a group with the character that ends it. -/
theorem unquoted_of_untilClosed (h : untilClosed opening .top cs = some (inside, rest)) :
    ∃ last, cs = inside ++ last :: rest ∧ Nesting.Unquoted (inside ++ [last]) := by
  obtain ⟨last, hcs, hholds, hneg⟩ :=
    (untilClosed_eq_some_iff (Nesting.depth_top opening)).mp h
  refine ⟨last, hcs, ?_⟩
  rw [Nesting.Unquoted, Nesting.advanceAll_append, Nesting.advanceAll_cons, Nesting.advanceAll_nil]
  exact quoted_of_depth_lt hholds.depth_nonneg hneg

/-- One call leads from `c` to `c'`: it finds a token or the end of the text, or it captures a
group. -/
inductive Step : Cursor → Cursor → Prop where
  | next {c c' : Cursor} (ahead : Option Token) (h : c.next = (.ok ahead, c')) : Step c c'
  | group {c c' : Cursor} (opening : Char) (openedAt : Nat) (taken : String × Nat)
      (h : c.takeGroup opening openedAt = (.ok taken, c')) : Step c c'

/-- A call passes over a stretch that closes its strings. -/
theorem Step.passes (h : Step c c') :
    ∃ piece, c.rest = piece ++ c'.rest ∧ c'.position = c.position + piece.length ∧
      Nesting.Unquoted piece := by
  cases h with
  | next ahead hnext =>
    obtain ⟨piece, hrest, hposition, -⟩ := passes_of_next hnext
    exact ⟨piece, hrest, hposition, unquoted_of_next hnext hrest⟩
  | group opening openedAt taken htake =>
    obtain ⟨hclosed, -, hposition⟩ := untilClosed_of_takeGroup htake
    obtain ⟨last, hrest, hunquoted⟩ := unquoted_of_untilClosed hclosed
    refine ⟨taken.1.toList ++ [last], ?_, ?_, hunquoted⟩
    · rw [hrest, List.append_assoc, List.singleton_append]
    · rw [hposition, List.length_append, List.length_singleton, Nat.add_assoc]

/-- Behind any number of calls the cursor stands outside strings. -/
theorem unquoted_of_steps (h : Relation.ReflTransGen Step (ofText text) c) :
    ∃ behind, text.toList = behind ++ c.rest ∧ behind.length = c.position ∧
      Nesting.Unquoted behind := by
  induction h with
  | refl => exact ⟨[], rfl, rfl, rfl⟩
  | tail _ hstep ih =>
    obtain ⟨behind, htext, hlength, hunquoted⟩ := ih
    obtain ⟨piece, hrest, hposition, hpiece⟩ := hstep.passes
    refine ⟨behind ++ piece, ?_, ?_, ?_⟩
    · rw [htext, hrest, List.append_assoc]
    · rw [List.length_append, hlength, hposition]
    · exact (Nesting.unquoted_append_iff hunquoted).mpr hpiece

/-- Wherever successful calls have led, all strings behind are closed, and a group is captured if
the text ahead begins with what its delimiters enclose: it is that stretch, which is the only one.
Otherwise the error is about the delimiter that was to be closed, and the whole text lies behind. -/
theorem takeGroup_iff_encloses (h : Relation.ReflTransGen Step (ofText text) c) :
    (∃ behind, text.toList = behind ++ c.rest ∧ behind.length = c.position ∧
      (Nesting.top.advanceAll behind).quoted = false) ∧
    ∀ opening closing, Closes opening closing → ∀ openedAt,
      ((∃ taken c', c.takeGroup opening openedAt = (.ok taken, c')) ↔
        ∃ inside rest, c.rest = inside ++ closing :: rest ∧ Nesting.Encloses opening inside) ∧
      (∀ inside rest, c.rest = inside ++ closing :: rest → Nesting.Encloses opening inside →
        (∀ inside' rest', c.rest = inside' ++ closing :: rest' →
          Nesting.Encloses opening inside' → inside' = inside) ∧
        c.takeGroup opening openedAt =
          (.ok (String.ofList inside, c.position), ⟨rest, c.position + inside.length + 1⟩)) ∧
      ((∀ inside rest, c.rest = inside ++ closing :: rest → ¬ Nesting.Encloses opening inside) →
        c.takeGroup opening openedAt =
          (.error (.positioned (.unmatched opening) openedAt 1), ⟨[], text.length⟩)) := by
  obtain ⟨behind, htext, hlength, hunquoted⟩ := unquoted_of_steps h
  refine ⟨⟨behind, htext, hlength, hunquoted⟩, ?_⟩
  intro opening closing hcloses openedAt
  refine ⟨⟨?_, ?_⟩, ?_, ?_⟩
  · rintro ⟨⟨taken, offset⟩, c', htake⟩
    obtain ⟨hclosed, -, -⟩ := untilClosed_of_takeGroup htake
    exact ⟨_, _, (untilClosed_iff_encloses hcloses).mp hclosed⟩
  · rintro ⟨inside, rest, hrest, hencloses⟩
    have hclosed := (untilClosed_iff_encloses hcloses).mpr ⟨hrest, hencloses⟩
    exact ⟨_, _, takeGroup_of_untilClosed hclosed openedAt⟩
  · intro inside rest hrest hencloses
    have hclosed := (untilClosed_iff_encloses hcloses).mpr ⟨hrest, hencloses⟩
    refine ⟨?_, takeGroup_of_untilClosed hclosed openedAt⟩
    intro inside' rest' hrest' hencloses'
    have hclosed' := (untilClosed_iff_encloses hcloses).mpr ⟨hrest', hencloses'⟩
    cases hclosed.symm.trans hclosed'
    rfl
  · intro hnone
    have hopen : untilClosed opening .top c.rest = none := by
      rw [Option.eq_none_iff_forall_ne_some]
      rintro ⟨inside, rest⟩ hclosed
      obtain ⟨hrest, hencloses⟩ := (untilClosed_iff_encloses hcloses).mp hclosed
      exact hnone inside rest hrest hencloses
    have hwhole : text.length = c.position + c.rest.length := by
      rw [← String.length_toList, htext, List.length_append, hlength]
    rw [takeGroup, hopen, hwhole]

/-- A call, an array, and delimiters in strings. -/
def delimitedText : String := "f(x, ')') + [y, ')]']("

/-- Behind the bracket of the array. -/
def insideArray : Cursor := ⟨"y, ')]'](".toList, 13⟩

theorem steps_insideArray : Relation.ReflTransGen Step (ofText delimitedText) insideArray := by
  have hname : Step (ofText delimitedText) ⟨"(x, ')') + [y, ')]'](".toList, 1⟩ :=
    .next (some ⟨.identifier, "f", 0, 1⟩) (by decide +kernel)
  have hparen : Step ⟨"(x, ')') + [y, ')]'](".toList, 1⟩ ⟨"x, ')') + [y, ')]'](".toList, 2⟩ :=
    .next (some ⟨.opening, "(", 1, 1⟩) (by decide +kernel)
  have hgroup : Step ⟨"x, ')') + [y, ')]'](".toList, 2⟩ ⟨" + [y, ')]'](".toList, 9⟩ :=
    .group '(' 1 ("x, ')'", 2) (by decide +kernel)
  have hplus : Step ⟨" + [y, ')]'](".toList, 9⟩ ⟨" [y, ')]'](".toList, 11⟩ :=
    .next (some ⟨.operator, "+", 10, 1⟩) (by decide +kernel)
  have hbracket : Step ⟨" [y, ')]'](".toList, 11⟩ insideArray :=
    .next (some ⟨.opening, "[", 12, 1⟩) (by decide +kernel)
  exact .head hname (.head hparen (.head hgroup (.head hplus (.single hbracket))))

theorem takeGroup_iff_encloses_array :
    Nesting.Encloses '[' "y, ')]'".toList ∧
      insideArray.takeGroup '[' 12 = (.ok ("y, ')]'", 13), ⟨['('], 21⟩) ∧
      insideArray.takeGroup '(' 1 = (.error (.positioned (.unmatched '(') 1 1), ⟨[], 22⟩) := by
  have hencloses : Nesting.Encloses '[' "y, ')]'".toList :=
    ⟨by decide, by decide, Nesting.holds_iff.mp (by decide)⟩
  have hgroups := (takeGroup_iff_encloses steps_insideArray).2
  obtain ⟨-, hcaptured, -⟩ := hgroups '[' ']' (.inl ⟨rfl, rfl⟩) 12
  obtain ⟨-, -, hunmatched⟩ := hgroups '(' ')' (.inr ⟨rfl, rfl⟩) 1
  refine ⟨hencloses, (hcaptured _ ['('] rfl hencloses).2, hunmatched ?_⟩
  -- the parenthesis ahead is part of a string
  intro inside rest hrest hencloses'
  have hclosed := (untilClosed_iff_encloses (.inr ⟨rfl, rfl⟩)).mpr ⟨hrest, hencloses'⟩
  have hnone : untilClosed '(' .top insideArray.rest = none := by decide
  rw [hnone] at hclosed
  cases hclosed

end Cursor

end Formula
