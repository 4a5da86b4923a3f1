import Formula.Nesting

/-! # Passing over a stretch of text

`Passes` says where the nesting goes over a stretch of text, and that on the way the parentheses do
not fall below a bound and no separator stands outside a string. Stretches that follow one another
pass as one.
-/

namespace Formula

/-- A character of two stretches stands in the second of them or in the first. -/
theorem append_cons_cases {α : Type} {xs ys front back : List α} {x : α}
    (h : xs ++ ys = front ++ x :: back) :
    (∃ more, front = xs ++ more ∧ ys = more ++ x :: back) ∨
      ∃ more, xs = front ++ x :: more ∧ back = more ++ ys := by
  rcases List.append_eq_append_iff.mp h with ⟨more, hfront, hys⟩ | ⟨more, hxs, hback⟩
  · exact Or.inl ⟨more, hfront, hys⟩
  · cases more with
    | nil =>
      rw [List.append_nil] at hxs
      exact Or.inl ⟨[], by rw [hxs, List.append_nil], hback.symm⟩
    | cons y more =>
      cases hback
      exact Or.inr ⟨more, hxs, rfl⟩

namespace Nesting

/-- Over `cs` the nesting goes from `t` to `t'`, with at least `low` parentheses open everywhere and
separators in strings only. -/
structure Passes (t : Nesting) (low : Int) (cs : List Char) (t' : Nesting) : Prop where
  behind : t.advanceAll cs = t'
  floor : ∀ u ∈ t.trail cs, low ≤ u.parens
  separators : ∀ before after, cs = before ++ separator :: after →
    (t.advanceAll before).quoted = true

variable {t t' t'' : Nesting} {low : Int} {cs ds : List Char}

theorem passes_nil (hlow : low ≤ t.parens) : t.Passes low [] t where
  behind := rfl
  floor := by
    intro u hu
    rw [List.mem_singleton.mp hu]
    exact hlow
  separators := by
    intro before after h
    simp at h

theorem Passes.cons {c : Char} (hlow : low ≤ t.parens) (hquoted : c = separator → t.quoted = true)
    (h : (t.advance c).Passes low cs t') : t.Passes low (c :: cs) t' where
  behind := h.behind
  floor := by
    intro u hu
    rcases List.mem_cons.mp hu with rfl | hu
    · exact hlow
    · exact h.floor u hu
  separators := by
    intro before after heq
    cases before with
    | nil =>
      cases heq
      exact hquoted rfl
    | cons d before =>
      cases heq
      exact h.separators before after rfl

theorem mem_trail_append {u : Nesting} :
    u ∈ t.trail (cs ++ ds) → u ∈ t.trail cs ∨ u ∈ (t.advanceAll cs).trail ds := by
  intro hu
  induction cs generalizing t with
  | nil => exact Or.inr hu
  | cons c cs ih =>
    rcases List.mem_cons.mp hu with rfl | hu
    · exact Or.inl List.mem_cons_self
    · rcases ih hu with hfront | hback
      · exact Or.inl (List.mem_cons_of_mem _ hfront)
      · exact Or.inr hback

theorem advanceAll_mem_trail (t : Nesting) (cs ds : List Char) :
    t.advanceAll cs ∈ t.trail (cs ++ ds) := by
  induction cs generalizing t with
  | nil => cases ds <;> simp [trail]
  | cons c cs ih => exact List.mem_cons_of_mem _ (ih (t.advance c))

theorem Passes.append (hfront : t.Passes low cs t') (hback : t'.Passes low ds t'') :
    t.Passes low (cs ++ ds) t'' where
  behind := by rw [advanceAll_append, hfront.behind, hback.behind]
  floor := by
    intro u hu
    rcases mem_trail_append hu with hu | hu
    · exact hfront.floor u hu
    · rw [hfront.behind] at hu
      exact hback.floor u hu
  separators := by
    intro before after heq
    rcases append_cons_cases heq with ⟨more, hbefore, hds⟩ | ⟨more, hcs, _⟩
    · rw [hbefore, advanceAll_append, hfront.behind]
      exact hback.separators more after hds
    · exact hfront.separators before more hcs

/-! ## Strings -/

theorem quoted_advance_congr (h : t.quoted = t'.quoted) (c : Char) :
    (t.advance c).quoted = (t'.advance c).quoted := by
  unfold advance
  grind

/-- Whether a string is open does not depend on the brackets and parentheses. -/
theorem quoted_advanceAll_congr (h : t.quoted = t'.quoted) (cs : List Char) :
    (t.advanceAll cs).quoted = (t'.advanceAll cs).quoted := by
  induction cs generalizing t t' with
  | nil => exact h
  | cons c cs ih => exact ih (quoted_advance_congr h c)

theorem quoted_advance {c : Char} (hc : c ≠ quote) : (t.advance c).quoted = t.quoted := by
  unfold advance
  grind

/-! ## Stretches of one kind -/

/-- A character that neither nests nor separates. -/
def Plain (c : Char) : Prop :=
  c ∉ [quote, '[', ']', '(', ')', separator]

theorem advance_of_plain {c : Char} (h : Plain c) (t : Nesting) : t.advance c = t := by
  simp only [Plain, List.mem_cons, List.not_mem_nil, or_false, not_or] at h
  simp [advance, h]

theorem passes_of_plain (h : ∀ c ∈ cs, Plain c) (hlow : low ≤ t.parens) : t.Passes low cs t := by
  induction cs with
  | nil => exact passes_nil hlow
  | cons c cs ih =>
    have hc := h c List.mem_cons_self
    refine Passes.cons hlow ?_ ?_
    · rintro rfl
      exact absurd hc (by unfold Plain; decide)
    · rw [advance_of_plain hc]
      exact ih fun d hd => h d (List.mem_cons_of_mem c hd)

/-- Inside a string nothing counts. -/
theorem advance_of_quoted {c : Char} (hc : c ≠ quote) (hquoted : t.quoted = true) :
    t.advance c = t := by
  simp [advance, hc, hquoted]

theorem passes_of_quoted (h : quote ∉ cs) (hquoted : t.quoted = true) (hlow : low ≤ t.parens) :
    t.Passes low cs t := by
  induction cs with
  | nil => exact passes_nil hlow
  | cons c cs ih =>
    rw [List.mem_cons, not_or] at h
    refine Passes.cons hlow (fun _ => hquoted) ?_
    rw [advance_of_quoted (Ne.symm h.1) hquoted]
    exact ih h.2

theorem passes_string {inside : List Char} (h : quote ∉ inside) (hquoted : t.quoted = false)
    (hlow : low ≤ t.parens) : t.Passes low (quote :: inside ++ [quote]) t := by
  -- between the quotes the nesting differs from `t` by being quoted only
  have hopen : t.advance quote = { t with quoted := true } := by simp [advance, hquoted]
  have hclose : Nesting.advance { t with quoted := true } quote = t := by simp [advance, ← hquoted]
  have hinside : Nesting.Passes { t with quoted := true } low inside { t with quoted := true } :=
    passes_of_quoted h rfl hlow
  have hend : Nesting.Passes { t with quoted := true } low [quote] t := by
    refine Passes.cons hlow (fun _ => rfl) ?_
    rw [hclose]
    exact passes_nil hlow
  refine Passes.cons hlow (fun heq => absurd heq (by decide)) ?_
  rw [hopen]
  exact hinside.append hend

/-! ## Parentheses -/

/-- The nesting with so many more parentheses open. -/
def raise (t : Nesting) (n : Int) : Nesting :=
  { t with parens := t.parens + n }

@[simp]
theorem raise_parens (t : Nesting) (n : Int) : (t.raise n).parens = t.parens + n := rfl

@[simp]
theorem raise_zero (t : Nesting) : t.raise 0 = t := by
  simp [raise]

@[simp]
theorem raise_raise (t : Nesting) (m n : Int) : (t.raise m).raise n = t.raise (m + n) := by
  simp [raise, Int.add_assoc]

theorem passes_opening (hquoted : t.quoted = false) (hlow : low ≤ t.parens) :
    t.Passes low ['('] (t.raise 1) := by
  have hopen : t.advance '(' = t.raise 1 := by simp [advance, hquoted, quote, raise]
  refine Passes.cons hlow (fun heq => absurd heq (by decide)) ?_
  rw [hopen]
  exact passes_nil (by rw [raise_parens]; omega)

theorem passes_closing (hquoted : t.quoted = false) (hlow : low < t.parens) :
    t.Passes low [')'] (t.raise (-1)) := by
  have hclose : t.advance ')' = t.raise (-1) := by
    simp [advance, hquoted, quote, raise, Int.sub_eq_add_neg]
  refine Passes.cons (Int.le_of_lt hlow) (fun heq => absurd heq (by decide)) ?_
  rw [hclose]
  exact passes_nil (by rw [raise_parens]; omega)

end Nesting

end Formula
