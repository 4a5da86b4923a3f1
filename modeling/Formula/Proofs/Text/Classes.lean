import Formula.Decimal.Reading
import Formula.Nesting
import Formula.Text.Classes

/-! # How the character classes lie to one another

Blanks, digits, the first characters of names and the delimiters are told apart by the lexer in a
fixed order. The classes do not overlap, so the order does not matter to a lexeme.
-/

namespace Formula

/-- What is found by testing every element of a list. The general instance for bounded quantifiers
over characters would test all characters there are. -/
theorem forall_mem_of_all {α : Type} {P : α → Prop} [DecidablePred P] {l : List α}
    (h : l.all (fun a => decide (P a)) = true) : ∀ a ∈ l, P a :=
  fun a ha => of_decide_eq_true (List.all_eq_true.mp h a ha)

namespace Text

theorem inRanges_iff {runs : List (Nat × Nat)} {c : Char} :
    inRanges runs c = true ↔ ∃ run ∈ runs, run.1 ≤ c.toNat ∧ c.toNat ≤ run.2 := by
  simp [inRanges]

/-- Runs that do not meet have no character in common. -/
theorem not_inRanges_of_disjoint {runs runs' : List (Nat × Nat)}
    (hdisjoint : ∀ a ∈ runs, ∀ b ∈ runs', a.2 < b.1 ∨ b.2 < a.1) {c : Char}
    (h : inRanges runs c = true) : inRanges runs' c = false := by
  rw [inRanges_iff] at h
  rcases h with ⟨a, ha, hlow, hhigh⟩
  refine Bool.eq_false_iff.mpr ?_
  intro hmeet
  rcases inRanges_iff.mp hmeet with ⟨b, hb, hlow', hhigh'⟩
  rcases hdisjoint a ha b hb with hbefore | hbehind
  · omega
  · omega

theorem isUpper_iff {c : Char} : c.isUpper = true ↔ 0x41 ≤ c.toNat ∧ c.toNat ≤ 0x5A := by
  show decide (c.val ≥ 'A'.val ∧ c.val ≤ 'Z'.val) = true ↔ _
  rw [decide_eq_true_eq]
  exact and_congr UInt32.le_iff_toNat_le UInt32.le_iff_toNat_le

theorem isLower_iff {c : Char} : c.isLower = true ↔ 0x61 ≤ c.toNat ∧ c.toNat ≤ 0x7A := by
  show (decide (c.val ≥ 'a'.val) && decide (c.val ≤ 'z'.val)) = true ↔ _
  rw [Bool.and_eq_true, decide_eq_true_eq, decide_eq_true_eq]
  exact and_congr UInt32.le_iff_toNat_le UInt32.le_iff_toNat_le

theorem isAlpha_iff {c : Char} : c.isAlpha = true ↔ c.isUpper = true ∨ c.isLower = true := by
  show (c.isUpper || c.isLower) = true ↔ _
  rw [Bool.or_eq_true]

/-- The runs of letters, ASCII included. -/
theorem inRanges_of_isLetter {c : Char} (h : isLetter c = true) :
    inRanges ((0x41, 0x5A) :: (0x61, 0x7A) :: letterRanges) c = true := by
  unfold isLetter at h
  split at h
  · rw [inRanges_iff]
    rcases isAlpha_iff.mp h with hupper | hlower
    · exact ⟨(0x41, 0x5A), by simp, isUpper_iff.mp hupper⟩
    · exact ⟨(0x61, 0x7A), by simp, isLower_iff.mp hlower⟩
  · rw [inRanges_iff] at h ⊢
    rcases h with ⟨run, hrun, hin⟩
    exact ⟨run, by simp [hrun], hin⟩

/-- The runs of blanks and of letters do not meet. -/
theorem blankRanges_disjoint_letterRanges :
    ∀ a ∈ (0x41, 0x5A) :: (0x61, 0x7A) :: letterRanges, ∀ b ∈ blankRanges,
      a.2 < b.1 ∨ b.2 < a.1 := by
  decide +kernel

/-- A character that is a small ASCII letter up to case is a letter. -/
theorem isLetter_of_isLower_toLower {c : Char} (h : c.toLower.isLower = true) :
    isLetter c = true := by
  -- folding moves capitals only
  have hcase : c.isUpper = true ∨ c.isLower = true := by
    by_cases hupper : c.isUpper = true
    · exact Or.inl hupper
    · right
      have hnot : ¬ (c.val ≥ 'A'.val ∧ c.val ≤ 'Z'.val) := fun hrange =>
        hupper (decide_eq_true hrange)
      have hsame : c.toLower = c := dif_neg hnot
      rwa [hsame] at h
  have hascii : c.toNat < 0x80 := by
    rcases hcase with hupper | hlower
    · have hrange := isUpper_iff.mp hupper
      omega
    · have hrange := isLower_iff.mp hlower
      omega
  rw [isLetter, if_pos hascii]
  exact isAlpha_iff.mpr hcase

/-- No name begins with a blank. -/
theorem isBlank_eq_false_of_startsName {c : Char} (h : startsName c = true) :
    isBlank c = false := by
  have hcases : isLetter c = true ∨ c = '_' := by simpa [startsName] using h
  rcases hcases with hletter | rfl
  · exact not_inRanges_of_disjoint blankRanges_disjoint_letterRanges (inRanges_of_isLetter hletter)
  · decide

/-- No name begins with a digit. -/
theorem isDigit_eq_false_of_startsName {c : Char} (h : startsName c = true) :
    Decimal.isDigit c = false := by
  have hcases : isLetter c = true ∨ c = '_' := by simpa [startsName] using h
  rcases hcases with hletter | rfl
  · have hdisjoint : ∀ a ∈ (0x41, 0x5A) :: (0x61, 0x7A) :: letterRanges,
        ∀ b ∈ [(0x30, 0x39)], a.2 < b.1 ∨ b.2 < a.1 := by decide +kernel
    have hdigits := not_inRanges_of_disjoint hdisjoint (inRanges_of_isLetter hletter)
    refine Bool.eq_false_iff.mpr ?_
    intro hdigit
    have hmeet : inRanges [(0x30, 0x39)] c = true :=
      inRanges_iff.mpr ⟨(0x30, 0x39), by simp, Char.isDigit_iff_toNat.mp hdigit⟩
    rw [hdigits] at hmeet
    cases hmeet
  · decide

/-- No digit is a blank. -/
theorem isBlank_eq_false_of_isDigit {c : Char} (h : Decimal.isDigit c = true) :
    isBlank c = false := by
  have hdisjoint : ∀ a ∈ [(0x30, 0x39)], ∀ b ∈ blankRanges, a.2 < b.1 ∨ b.2 < a.1 := by decide
  refine not_inRanges_of_disjoint hdisjoint (inRanges_iff.mpr ⟨(0x30, 0x39), by simp, ?_⟩)
  exact Char.isDigit_iff_toNat.mp h

/-- The runs of blanks and of numerals do not meet. -/
theorem blankRanges_disjoint_numeralRanges :
    ∀ a ∈ (0x30, 0x39) :: numeralRanges, ∀ b ∈ blankRanges, a.2 < b.1 ∨ b.2 < a.1 := by
  decide +kernel

/-- The runs of numerals, ASCII included. -/
theorem inRanges_of_isNumeral {c : Char} (h : isNumeral c = true) :
    inRanges ((0x30, 0x39) :: numeralRanges) c = true := by
  unfold isNumeral at h
  rw [inRanges_iff]
  split at h
  · exact ⟨(0x30, 0x39), by simp, Char.isDigit_iff_toNat.mp h⟩
  · obtain ⟨run, hrun, hin⟩ := inRanges_iff.mp h
    exact ⟨run, by simp [hrun], hin⟩

/-- No name goes on with a blank. -/
theorem continuesName_eq_false_of_isBlank {c : Char} (h : isBlank c = true) :
    continuesName c = false := by
  refine Bool.eq_false_iff.mpr ?_
  intro hname
  have hcases : ((isLetter c = true ∨ isNumeral c = true) ∨ c = '_') ∨ c = '.' := by
    simpa [continuesName] using hname
  have hother : isBlank c = false := by
    rcases hcases with ((hletter | hnumeral) | rfl) | rfl
    · exact not_inRanges_of_disjoint blankRanges_disjoint_letterRanges (inRanges_of_isLetter hletter)
    · exact not_inRanges_of_disjoint blankRanges_disjoint_numeralRanges
        (inRanges_of_isNumeral hnumeral)
    · decide
    · decide
  rw [h] at hother
  cases hother

end Text

end Formula
