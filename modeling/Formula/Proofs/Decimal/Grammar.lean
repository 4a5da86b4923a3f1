import Formula.Proofs.Text.Folding
import Formula.Proofs.Token.Lexeme

/-! # The grammar of decimals

A decimal is a significand, which has a digit at least and a point at most, and an exponent or none.
Every decimal can be read, and as a whole text it is neither signed nor one of the words for what is
not finite.
-/

namespace Formula.Decimal

variable {cs digits whole fraction front back rest : List Char} {c mark : Char}

/-! ## The grammar -/

/-- `digits*` -/
def IsDigits (cs : List Char) : Prop :=
  ∀ c ∈ cs, isDigit c = true

/-- `digits* ['.' digits*]` -/
inductive IsMantissa : List Char → Prop where
  | whole {digits : List Char} (h : IsDigits digits) : IsMantissa digits
  | point {whole fraction : List Char} (hwhole : IsDigits whole) (hfraction : IsDigits fraction) :
      IsMantissa (whole ++ '.' :: fraction)

/-- `digits+ ['.' digits*]` or `'.' digits+` -/
inductive IsSignificand : List Char → Prop where
  | whole {digits : List Char} (h : IsDigits digits) (hne : digits ≠ []) : IsSignificand digits
  | point {whole fraction : List Char} (hwhole : IsDigits whole) (hne : whole ≠ [])
      (hfraction : IsDigits fraction) : IsSignificand (whole ++ '.' :: fraction)
  | fraction {digits : List Char} (h : IsDigits digits) (hne : digits ≠ []) :
      IsSignificand ('.' :: digits)

/-- `'e' | 'E'` -/
def IsMark (c : Char) : Prop :=
  c = 'e' ∨ c = 'E'

/-- `('e' | 'E') ['+' | '-']` -/
inductive IsOnset : List Char → Prop where
  | bare {mark : Char} (h : IsMark mark) : IsOnset [mark]
  | signed {mark sign : Char} (h : IsMark mark) (hsign : sign ∈ ['+', '-']) : IsOnset [mark, sign]

/-- `('e' | 'E') ['+' | '-'] digits+` -/
inductive IsExponent : List Char → Prop where
  | intro {onset digits : List Char} (honset : IsOnset onset) (hdigits : IsDigits digits)
      (hne : digits ≠ []) : IsExponent (onset ++ digits)

/-- A significand, behind which an exponent may stand. -/
inductive IsDecimal : List Char → Prop where
  | plain {cs : List Char} (h : IsSignificand cs) : IsDecimal cs
  | scaled {front back : List Char} (hfront : IsSignificand front) (hback : IsExponent back) :
      IsDecimal (front ++ back)

/-! ## Its parts -/

theorem IsMark.isDigit_eq_false (h : IsMark mark) : isDigit mark = false := by
  rcases h with rfl | rfl
  · rfl
  · rfl

theorem IsMark.ne_point (h : IsMark mark) : mark ≠ '.' := by
  rcases h with rfl | rfl
  · decide
  · decide

theorem isDigit_eq_false_of_sign {sign : Char} (h : sign ∈ ['+', '-']) : isDigit sign = false := by
  have hsigns : ∀ sign ∈ ['+', '-'], isDigit sign = false := forall_mem_of_all (by decide)
  exact hsigns sign h

theorem IsMantissa.mem (h : IsMantissa cs) (hc : c ∈ cs) : isDigit c = true ∨ c = '.' := by
  cases h with
  | whole h => exact .inl (h c hc)
  | point hwhole hfraction =>
    rcases List.mem_append.mp hc with hc | hc
    · exact .inl (hwhole c hc)
    · rcases List.mem_cons.mp hc with rfl | hc
      · exact .inr rfl
      · exact .inl (hfraction c hc)

theorem IsMantissa.not_isMark (h : IsMantissa cs) (hc : c ∈ cs) : ¬ IsMark c := by
  intro hmark
  rcases h.mem hc with hdigit | rfl
  · rw [hmark.isDigit_eq_false] at hdigit
    cases hdigit
  · exact hmark.ne_point rfl

theorem IsSignificand.isMantissa (h : IsSignificand cs) : IsMantissa cs := by
  cases h with
  | whole h _ => exact .whole h
  | point hwhole _ hfraction => exact .point hwhole hfraction
  | fraction h _ => exact @IsMantissa.point [] _ (fun _ => nofun) h

theorem IsSignificand.ne_nil (h : IsSignificand cs) : cs ≠ [] := by
  cases h with
  | whole _ hne => exact hne
  | point _ _ _ => exact List.append_ne_nil_of_right_ne_nil _ (List.cons_ne_nil _ _)
  | fraction _ _ => exact List.cons_ne_nil _ _

/-- A digit makes a mantissa a significand. -/
theorem IsMantissa.isSignificand (h : IsMantissa cs) (hc : c ∈ cs) (hdigit : isDigit c = true) :
    IsSignificand cs := by
  cases h with
  | whole h => exact .whole h (List.ne_nil_of_mem hc)
  | @point whole fraction hwhole hfraction =>
    cases whole with
    | cons d whole => exact .point hwhole (List.cons_ne_nil d whole) hfraction
    | nil =>
      rcases List.mem_cons.mp hc with rfl | hc
      · cases hdigit
      · exact .fraction hfraction (List.ne_nil_of_mem hc)

theorem IsOnset.exists_cons (h : IsOnset cs) : ∃ mark sign, IsMark mark ∧ cs = mark :: sign := by
  cases h with
  | @bare mark h => exact ⟨mark, [], h, rfl⟩
  | @signed mark sign h _ => exact ⟨mark, [sign], h, rfl⟩

theorem IsExponent.exists_cons (h : IsExponent cs) :
    ∃ mark behind, IsMark mark ∧ cs = mark :: behind := by
  cases h with
  | @intro onset digits honset _ _ =>
    obtain ⟨mark, sign, hmark, rfl⟩ := honset.exists_cons
    exact ⟨mark, sign ++ digits, hmark, rfl⟩

/-- Only a sign makes a longer onset of one. -/
theorem IsOnset.sign_of_append (h : IsOnset front) (hlonger : IsOnset (front ++ c :: rest)) :
    c ∈ ['+', '-'] := by
  obtain ⟨mark, sign, _, rfl⟩ := h.exists_cons
  generalize hcs : mark :: sign ++ c :: rest = cs at hlonger
  cases hlonger with
  | bare _ => simp at hcs
  | signed _ hsign =>
    cases sign with
    | nil =>
      cases hcs
      exact hsign
    | cons d sign => simp at hcs

/-! ## Reading decimals -/

/-- A decimal with its mantissa already read: the digits before the point and behind it, and what
follows them. -/
def readBehind? (negative : Bool) (whole fraction rest : List Char) : Option Float :=
  if whole.isEmpty && fraction.isEmpty then none
  else
    let value (exponent : Int) := nearest negative (ofDigits (whole ++ fraction))
      (exponent - fraction.length)
    match rest with
    | [] => some (value 0)
    | c :: rest => if c = 'e' ∨ c = 'E' then (readExponent? rest).map value else none

theorem read?_of_point {negative : Bool} (h : cs.dropWhile isDigit = '.' :: rest) :
    read? negative cs = readBehind? negative (cs.takeWhile isDigit) (rest.takeWhile isDigit)
      (rest.dropWhile isDigit) := by
  unfold read?
  rw [h]
  rfl

theorem read?_of_not_point {negative : Bool} (h : ∀ c ∈ (cs.dropWhile isDigit).head?, c ≠ '.') :
    read? negative cs =
      readBehind? negative (cs.takeWhile isDigit) [] (cs.dropWhile isDigit) := by
  unfold read?
  cases hrest : cs.dropWhile isDigit with
  | nil => rfl
  | cons c rest =>
    have hpoint : c ≠ '.' := h c (by rw [hrest]; rfl)
    simp only
    split
    · exact absurd (List.cons.inj ‹_›).1 hpoint
    · rfl

/-- The digits of an exponent are read behind a sign or without one. -/
theorem isSome_readExponent? (h : IsOnset (mark :: front)) (hdigits : IsDigits digits)
    (hne : digits ≠ []) : (readExponent? (front ++ digits)).isSome = true := by
  have hall : ∀ c ∈ digits, isDigit c = true := hdigits
  cases h with
  | bare _ =>
    -- the first digit is not taken for a sign
    obtain ⟨c, behind, rfl⟩ := List.exists_cons_of_ne_nil hne
    have hsign : ∀ sign ∈ ['+', '-'], c ≠ sign := by
      rintro sign hsign rfl
      cases (isDigit_eq_false_of_sign hsign).symm.trans (hdigits c List.mem_cons_self)
    have hplus := hsign '+' (by decide)
    have hminus := hsign '-' (by decide)
    simpa [readExponent?, hplus, hminus] using hall
  | signed _ hsign =>
    simp only [List.mem_cons, List.not_mem_nil, or_false] at hsign
    rcases hsign with rfl | rfl
    · simpa [readExponent?, hne] using hall
    · simpa [readExponent?, hne] using hall

/-- Behind a significand there is nothing, or an exponent. -/
theorem isSome_readBehind? (hdigits : whole ≠ [] ∨ fraction ≠ [])
    (hback : back = [] ∨ IsExponent back) (negative : Bool) :
    (readBehind? negative whole fraction back).isSome = true := by
  have hnot : ¬ (whole.isEmpty && fraction.isEmpty) = true := by
    simpa [imp_iff_not_or] using hdigits
  unfold readBehind?
  rw [if_neg hnot]
  rcases hback with rfl | hback
  · rfl
  · cases hback with
    | @intro onset digits honset hexponent hne =>
      obtain ⟨mark, sign, hmark, rfl⟩ := honset.exists_cons
      have hmark' : mark = 'e' ∨ mark = 'E' := hmark
      simp only [List.cons_append, if_pos hmark', Option.isSome_map]
      exact isSome_readExponent? honset hexponent hne

/-- A significand is read up to where it ends. -/
theorem isSome_read?_of_significand (h : IsSignificand front) (hback : back = [] ∨ IsExponent back)
    (negative : Bool) : (read? negative (front ++ back)).isSome = true := by
  have hhead : ∀ c ∈ back.head?, IsMark c := by
    rcases hback with rfl | hback
    · exact nofun
    · obtain ⟨mark, behind, hmark, rfl⟩ := hback.exists_cons
      rintro _ ⟨⟩
      exact hmark
  have hend : ∀ c ∈ back.head?, isDigit c = false := fun c hc => (hhead c hc).isDigit_eq_false
  have hwhole : ∀ digits, IsDigits digits → read? negative (digits ++ back) =
      readBehind? negative digits [] back := by
    intro digits hdigits
    have hdrop := dropWhile_of_run hdigits hend
    have hstop : ∀ c ∈ ((digits ++ back).dropWhile isDigit).head?, c ≠ '.' := by
      rw [hdrop]
      exact fun c hc => (hhead c hc).ne_point
    rw [read?_of_not_point hstop, takeWhile_of_run hdigits hend, hdrop]
  have hpoint : ∀ whole fraction, IsDigits whole → IsDigits fraction →
      read? negative ((whole ++ '.' :: fraction) ++ back) =
        readBehind? negative whole fraction back := by
    intro whole fraction hdigits hfraction
    have hstop : ∀ c ∈ ('.' :: (fraction ++ back)).head?, isDigit c = false := by
      rintro _ ⟨⟩
      rfl
    rw [List.append_assoc, List.cons_append, read?_of_point (dropWhile_of_run hdigits hstop),
      takeWhile_of_run hdigits hstop, takeWhile_of_run hfraction hend,
      dropWhile_of_run hfraction hend]
  cases h with
  | whole h hne =>
    rw [hwhole _ h]
    exact isSome_readBehind? (.inl hne) hback negative
  | point h hne hfraction =>
    rw [hpoint _ _ h hfraction]
    exact isSome_readBehind? (.inl hne) hback negative
  | @fraction digits h hne =>
    have hread := hpoint [] digits (fun _ => nofun) h
    rw [List.nil_append] at hread
    rw [hread]
    exact isSome_readBehind? (.inr hne) hback negative

namespace IsDecimal

variable (h : IsDecimal cs)

include h

/-- Every decimal has a value. -/
theorem isSome_read? (negative : Bool) : (read? negative cs).isSome = true := by
  cases h with
  | plain h =>
    have hread := isSome_read?_of_significand h (.inl rfl) negative
    rwa [List.append_nil] at hread
  | scaled hfront hback => exact isSome_read?_of_significand hfront (.inr hback) negative

/-- A decimal begins with a digit or with a point. -/
theorem exists_cons : ∃ c rest, cs = c :: rest ∧ (isDigit c = true ∨ c = '.') := by
  have hsignificand : ∀ {front : List Char}, IsSignificand front →
      ∃ c rest, front = c :: rest ∧ (isDigit c = true ∨ c = '.') := by
    intro front hfront
    obtain ⟨c, rest, rfl⟩ := List.exists_cons_of_ne_nil hfront.ne_nil
    exact ⟨c, rest, rfl, hfront.isMantissa.mem List.mem_cons_self⟩
  cases h with
  | plain h => exact hsignificand h
  | @scaled front back hfront hback =>
    obtain ⟨c, rest, rfl, hc⟩ := hsignificand hfront
    exact ⟨c, rest ++ back, rfl, hc⟩

/-- As a text of its own, a decimal without a sign is read as it stands. -/
theorem ofText?_eq : ofText? (String.ofList cs) = read? false cs := by
  obtain ⟨c, rest, rfl, hc⟩ := h.exists_cons
  -- it begins neither with a sign nor with the first letter of a word, in either case
  have hother : ∀ d ∈ ['+', '-', 'i', 'n'], ∀ e, (isDigit e = true ∨ e = '.') → e ≠ d := by
    have hclasses : ∀ d ∈ ['+', '-', 'i', 'n'], isDigit d = false ∧ '.' ≠ d :=
      forall_mem_of_all (by decide)
    rintro d hd e (hdigit | rfl) rfl
    · cases hdigit.symm.trans (hclasses e hd).1
    · exact (hclasses '.' hd).2 rfl
  have hlower : isDigit c.toLower = true ∨ c.toLower = '.' := by
    rcases hc with hdigit | rfl
    · exact .inl ((Text.isDigit_toLower c).trans hdigit)
    · exact .inr rfl
  have hplus := hother '+' (by decide) c hc
  have hminus := hother '-' (by decide) c hc
  have hinf := hother 'i' (by decide) c.toLower hlower
  have hnan := hother 'n' (by decide) c.toLower hlower
  unfold ofText?
  rw [String.toList_ofList]
  simp [hplus, hminus, hinf, hnan]

end IsDecimal

end Formula.Decimal
