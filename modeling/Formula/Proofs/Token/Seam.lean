import Formula.Proofs.Structure
import Mathlib.Data.List.Forall2

/-! # Seams

Where a delimiter stands, outside quotes, a text falls apart: no token reaches over the place. A blank
that is put there is passed over by the lexer, belongs to the text of a group that reaches over the
place, and to one of the segments of an argument list.
-/

namespace Formula

/-- The characters that are tokens by themselves, wherever they stand outside quotes. -/
def IsDelimiter (c : Char) : Prop :=
  c ∈ ['(', ')', '[', ']', separator]

namespace Nesting

variable {xs ys : List Char}

/-- No string is open behind the text. -/
def Unquoted (cs : List Char) : Prop :=
  (top.advanceAll cs).quoted = false

theorem unquoted_append_iff (h : Unquoted xs) : Unquoted (xs ++ ys) ↔ Unquoted ys := by
  unfold Unquoted
  rw [advanceAll_append, @quoted_advanceAll_congr _ top h]

end Nesting

/-- A blank between the two parts of the text stands beside a delimiter or at an end, outside quotes,
and not between two delimiters with nothing between them. -/
structure Seam (front back : List Char) : Prop where
  unquoted : Nesting.Unquoted front
  beside : front = [] ∨ back = [] ∨ (∃ d ∈ front.getLast?, IsDelimiter d) ∨
    ∃ d ∈ back.head?, IsDelimiter d
  apart : ∀ c ∈ front.getLast?, ∀ d ∈ back.head?, ¬ (c ∈ ['(', '['] ∧ d ∈ [')', ']'])

namespace Seam

variable {front back before after : List Char}

/-- A seam is one in every part of the text around it. -/
theorem inner (h : Seam (before ++ front) (back ++ after)) (hbefore : Nesting.Unquoted before) :
    Seam front back where
  unquoted := (Nesting.unquoted_append_iff hbefore).mp h.unquoted
  beside := by
    rcases h.beside with hnil | hnil | ⟨d, hd, hdelimiter⟩ | ⟨d, hd, hdelimiter⟩
    · exact .inl (List.append_eq_nil_iff.mp hnil).2
    · exact .inr (.inl (List.append_eq_nil_iff.mp hnil).1)
    · cases front with
      | nil => exact .inl rfl
      | cons c front =>
        rw [List.getLast?_append_cons] at hd
        exact .inr (.inr (.inl ⟨d, hd, hdelimiter⟩))
    · cases back with
      | nil => exact .inr (.inl rfl)
      | cons c back => exact .inr (.inr (.inr ⟨d, hd, hdelimiter⟩))
  apart := by
    intro c hc d hd
    refine h.apart c ?_ d ?_
    · cases front with
      | nil => cases hc
      | cons b front =>
        rw [List.getLast?_append_cons]
        exact hc
    · cases back with
      | nil => cases hd
      | cons b back => exact hd

theorem behind (h : Seam (before ++ front) back) (hbefore : Nesting.Unquoted before) :
    Seam front back := by
  rw [← List.append_nil back] at h
  exact h.inner hbefore

/-- A string that begins before the seam ends before it. -/
theorem quote_mem {others : List Char} (h : Seam (quote :: others) back) : quote ∈ others := by
  by_contra hnot
  have hpasses := Nesting.passes_of_quoted (t := Nesting.top.advance quote) hnot rfl
    (Int.le_refl _)
  have hunquoted := h.unquoted
  rw [Nesting.Unquoted, Nesting.advanceAll_cons, hpasses.behind] at hunquoted
  cases hunquoted

end Seam

/-! ## Scanning -/

namespace Scan

variable {c : Char} {cs front back tail : List Char}

/-- What a delimiter begins is the delimiter. -/
theorem ofChar_of_delimiter (h : IsDelimiter c) :
    ∃ kind, ∀ cs, ofChar c cs = ⟨.ok kind, [c], cs⟩ := by
  simp only [IsDelimiter, List.mem_cons, List.not_mem_nil, or_false] at h
  rcases h with rfl | rfl | rfl | rfl | rfl
  · exact ⟨.opening, fun _ => rfl⟩
  · exact ⟨.closing, fun _ => rfl⟩
  · exact ⟨.opening, fun _ => rfl⟩
  · exact ⟨.closing, fun _ => rfl⟩
  · exact ⟨.separator, fun _ => rfl⟩

/-- What follows a delimiter does not matter for the lexemes before it. -/
theorem ofChar_append_of_last (hlast : ∃ d ∈ (c :: cs).getLast?, IsDelimiter d)
    (hstring : c = quote → quote ∈ cs) (tail : List Char) :
    ofChar c (cs ++ tail) =
      ⟨(ofChar c cs).outcome, (ofChar c cs).lexeme, (ofChar c cs).rest ++ tail⟩ := by
  obtain ⟨d, hd, hdelimiter⟩ := hlast
  rcases List.eq_nil_or_concat cs with rfl | ⟨others, e, hcs⟩
  · -- the delimiter is the lexeme
    obtain rfl : c = d := by simpa using hd
    obtain ⟨kind, hscan⟩ := ofChar_of_delimiter hdelimiter
    rw [hscan, hscan]
  · -- the delimiter ends what comes before it
    rw [List.concat_eq_append] at hcs
    subst hcs
    obtain rfl : e = d := by
      have hlast : ((c :: others) ++ [e]).getLast? = some d := hd
      rw [List.getLast?_append_cons] at hlast
      exact Option.some.inj hlast
    have hends : ∀ rest, ∀ f ∈ (e :: rest).head?, Ends f := by
      rintro rest _ ⟨⟩
      exact ends_of_delimiter hdelimiter
    have hopen : c = quote → quote ∈ others := by
      intro hc
      rcases List.mem_append.mp (hstring hc) with hmem | hmem
      · exact hmem
      · rw [← List.mem_singleton.mp hmem] at hdelimiter
        exact absurd hdelimiter (by unfold IsDelimiter; decide)
    rw [List.append_assoc, List.singleton_append, ofChar_append_of_ends (hends tail) hopen,
      ofChar_append_of_ends (hends []) hopen, List.append_assoc, List.singleton_append]

/-- Whatever comes behind a seam, or a blank in its place, does not matter for the lexemes before. -/
theorem ofChar_append_of_seam {blanks : List Char} (hseam : Seam (blanks ++ c :: cs) back)
    (hblanks : ∀ d ∈ blanks, Text.isBlank d = true) {tail : List Char}
    (htail : tail = back ∨ ∃ d rest, tail = d :: rest ∧ Text.isBlank d = true) :
    ofChar c (cs ++ tail) =
      ⟨(ofChar c cs).outcome, (ofChar c cs).lexeme, (ofChar c cs).rest ++ tail⟩ := by
  have hunquoted : Nesting.Unquoted blanks := by
    have hpasses := passes_of_blank hblanks (Int.le_refl Nesting.top.parens)
    rw [Nesting.Unquoted, hpasses.behind]
    rfl
  have hhere : Seam (c :: cs) back := hseam.behind hunquoted
  have hstring : c = quote → quote ∈ cs := by
    rintro rfl
    exact hhere.quote_mem
  have hends : (∀ d ∈ tail.head?, Ends d) ∨ ∃ d ∈ (c :: cs).getLast?, IsDelimiter d := by
    rcases htail with rfl | ⟨d, rest, rfl, hblank⟩
    · rcases hhere.beside with hnil | rfl | hlast | ⟨d, hd, hdelimiter⟩
      · cases hnil
      · exact .inl nofun
      · exact .inr hlast
      · left
        intro e he
        rw [Option.mem_unique he hd]
        exact ends_of_delimiter hdelimiter
    · left
      rintro _ ⟨⟩
      exact ends_of_blank hblank
  rcases hends with hends | hlast
  · exact ofChar_append_of_ends hends hstring
  · exact ofChar_append_of_last hlast hstring tail

end Scan

/-! ## Cursors -/

/-- The second text is the first with one blank more, at a seam. -/
def Loosened (cs cs' : List Char) : Prop :=
  ∃ front back blank, Text.isBlank blank = true ∧ Seam front back ∧ cs = front ++ back ∧
    cs' = front ++ blank :: back

/-- The second text is the first, perhaps with one blank more. -/
def Spread (cs cs' : List Char) : Prop :=
  cs = cs' ∨ Loosened cs cs'

namespace Cursor

variable {c c' c₁ : Cursor} {token : Token} {front back : List Char} {blank : Char}

/-- Where a text stands does not matter for the token at its head. -/
theorem next_of_rest_eq (hrest : c.rest = c'.rest) (h : c.next = (.ok (some token), c₁)) :
    ∃ token' c₁', c'.next = (.ok (some token'), c₁') ∧ token'.kind = token.kind ∧
      token'.text = token.text ∧ c₁.rest = c₁'.rest := by
  obtain ⟨blanks, first, others, lexeme, hwhole, hblanks, hfirst, hscan, htoken, -⟩ :=
    scan_of_next h
  have hnext := next_of_scan hblanks hfirst hscan c'.position
  rw [← hwhole, hrest] at hnext
  exact ⟨_, _, hnext, rfl, by rw [htoken], rfl⟩

theorem cuts_of_scan {blanks others lexeme : List Char} {first : Char}
    (hrest : c.rest = blanks ++ first :: others) (hblanks : ∀ d ∈ blanks, Text.isBlank d = true)
    (hscan : Scan.ofChar first others = ⟨.ok token.kind, lexeme, c₁.rest⟩)
    (htoken : token =
      ⟨token.kind, token.kind.textOf lexeme, c.position + blanks.length, lexeme.length⟩)
    (hposition : c₁.position = c.position + blanks.length + lexeme.length) :
    c.Cuts blanks lexeme token c₁ := by
  have happend := Scan.ofChar_append first others
  have hfits := Scan.fits_of_ofChar (congrArg Scan.outcome hscan)
  rw [hscan] at happend hfits
  constructor
  · rw [hrest, ← happend]
  · exact hblanks
  · exact Token.Kind.ne_nil_of_fits hfits
  · exact hfits
  · exact congrArg Token.text htoken
  · exact congrArg Token.position htoken
  · exact congrArg Token.length htoken
  · rw [hposition, congrArg Token.position htoken, congrArg Token.length htoken]

/-- Strings end within tokens. -/
theorem Cuts.unquoted {blanks lexeme : List Char} (h : c.Cuts blanks lexeme token c₁) :
    Nesting.Unquoted (blanks ++ lexeme) := by
  rw [Nesting.Unquoted, h.advanceAll rfl]
  rfl

/-- A token before a seam, or behind it, is found with a blank there, too. -/
theorem next_of_seam (hseam : Seam front back) (hblank : Text.isBlank blank = true)
    (hrest : c.rest = front ++ back) (hrest' : c'.rest = front ++ blank :: back)
    (h : c.next = (.ok (some token), c₁)) :
    ∃ token' c₁', c'.next = (.ok (some token'), c₁') ∧ token'.kind = token.kind ∧
      token'.text = token.text ∧
      (c₁.rest = c₁'.rest ∨ ∃ blanks lexeme more, c.Cuts blanks lexeme token c₁ ∧
        front = (blanks ++ lexeme) ++ more ∧ c₁.rest = more ++ back ∧
          c₁'.rest = more ++ blank :: back) := by
  obtain ⟨blanks, first, others, lexeme, hwhole, hblanks, hfirst, hscan, htoken, hposition⟩ :=
    scan_of_next h
  have hcuts := cuts_of_scan hwhole hblanks hscan htoken hposition
  rw [hrest] at hwhole
  rcases append_cons_cases hwhole with ⟨more, hmore, hback⟩ | ⟨more, hfront, hothers⟩
  · -- the token stands behind the seam
    have hall : ∀ d ∈ front ++ blank :: more, Text.isBlank d = true := by
      rw [hmore] at hblanks
      intro d hd
      rcases List.mem_append.mp hd with hd | hd
      · exact hblanks d (List.mem_append_left _ hd)
      · rcases List.mem_cons.mp hd with rfl | hd
        · exact hblank
        · exact hblanks d (List.mem_append_right _ hd)
    have hnext := next_of_scan hall hfirst hscan c'.position
    have hrest'' : front ++ blank :: more ++ first :: others = c'.rest := by
      rw [hrest', hback, List.append_assoc, List.cons_append]
    rw [hrest''] at hnext
    exact ⟨_, _, hnext, rfl, by rw [htoken], .inl rfl⟩
  · -- the token ends before the seam
    rw [hfront] at hseam hrest'
    have hseen := Scan.ofChar_append_of_seam hseam hblanks (.inl rfl)
    have hseen' := Scan.ofChar_append_of_seam hseam hblanks
      (.inr ⟨blank, back, rfl, hblank⟩)
    have happend := Scan.ofChar_append first more
    rcases hmore : Scan.ofChar first more with ⟨outcome, lexeme', more'⟩
    rw [hmore] at hseen hseen' happend
    rw [hothers, hseen] at hscan
    simp only [Scan.mk.injEq] at hscan
    obtain ⟨rfl, rfl, hbehind⟩ := hscan
    have hnext := next_of_scan hblanks hfirst hseen' c'.position
    rw [List.append_assoc, List.cons_append] at hrest'
    rw [← hrest'] at hnext
    refine ⟨_, _, hnext, rfl, by rw [htoken], .inr ⟨blanks, lexeme', more', hcuts, ?_, ?_, rfl⟩⟩
    · rw [hfront, ← happend, List.append_assoc]
    · exact hbehind.symm

/-- Blanks stay blanks with one more. -/
theorem next_none_of_seam (hblank : Text.isBlank blank = true) (hrest : c.rest = front ++ back)
    (hrest' : c'.rest = front ++ blank :: back) (h : c.next = (.ok none, c₁)) :
    ∃ c₁', c'.next = (.ok none, c₁') := by
  have hall : ∀ d ∈ c'.rest, Text.isBlank d = true := by
    have hblanks := blank_of_next_none h
    rw [hrest] at hblanks
    rw [hrest']
    intro d hd
    rcases List.mem_append.mp hd with hd | hd
    · exact hblanks d (List.mem_append_left _ hd)
    · rcases List.mem_cons.mp hd with rfl | hd
      · exact hblank
      · exact hblanks d (List.mem_append_right _ hd)
  exact ⟨_, next_of_blank hall c'.position⟩

/-- A group ends before a seam, and before it with a blank there; or it ends behind the seam, and the
blank belongs to its text. -/
theorem untilClosed_of_seam {opening : Char} {inside rest : List Char}
    (hopening : opening = '[' ∨ opening = '(') (hseam : Seam front back)
    (hblank : Text.isBlank blank = true)
    (h : untilClosed opening .top (front ++ back) = some (inside, rest)) :
    (∃ more, untilClosed opening .top (front ++ blank :: back) =
        some (inside, more ++ blank :: back) ∧ rest = more ++ back ∧ Seam more back) ∨
      ∃ more closing, untilClosed opening .top (front ++ blank :: back) =
          some (front ++ blank :: more, rest) ∧
        inside = front ++ more ∧ back = more ++ closing :: rest ∧ Closes opening closing := by
  cases hfront : untilClosed opening .top front with
  | some taken =>
    obtain ⟨inside', more⟩ := taken
    rw [untilClosed_append_of_some hfront] at h
    cases h
    obtain ⟨closing, hcloses, rfl, hquoted⟩ :=
      closes_of_untilClosed hopening (Nesting.depth_top _) hfront
    refine .inl ⟨more, untilClosed_append_of_some hfront _, rfl, ?_⟩
    -- outside strings the nesting counts the delimiter
    have hunquoted : Nesting.Unquoted (inside ++ [closing]) := by
      have hclosing : closing ≠ quote := by
        rcases hcloses with ⟨-, rfl⟩ | ⟨-, rfl⟩
        · decide
        · decide
      rw [Nesting.Unquoted, Nesting.advanceAll_append, Nesting.advanceAll_cons,
        Nesting.advanceAll_nil, Nesting.quoted_advance hclosing]
      exact hquoted
    rw [List.append_cons] at hseam
    exact hseam.behind hunquoted
  | none =>
    have hholds := holds_of_untilClosed_none (Nesting.depth_top opening) hfront
    have hdepth := hholds.depth_nonneg
    rw [untilClosed_of_holds hholds] at h
    obtain ⟨⟨more, rest'⟩, hback, heq⟩ := Option.map_eq_some_iff.mp h
    cases heq
    obtain ⟨closing, hcloses, hrest, -⟩ := closes_of_untilClosed hopening hdepth hback
    refine .inr ⟨more, closing, ?_, rfl, hrest, hcloses⟩
    have hstill := Nesting.advance_of_plain (plain_of_isBlank hblank) (Nesting.top.advanceAll front)
    simp only [untilClosed_of_holds hholds, untilClosed, hstill, if_neg (Int.not_lt.mpr hdepth),
      hback, Option.map_some]

end Cursor

/-! ## Segments -/

namespace Segment

/-- The first piece is a beginning of the list. -/
theorem cut_head_prefix {t : Nesting} {cs piece : List Char} {later : List (List Char)}
    (h : cut t cs = piece :: later) : ∃ after, cs = piece ++ after := by
  have hcut := intercalate_cut t cs
  rw [h] at hcut
  cases later with
  | nil => exact ⟨[], by rw [← hcut]; simp⟩
  | cons next later => exact ⟨_, by rw [← hcut, List.intercalate_cons_cons, List.append_assoc]⟩

theorem modifyHead_nil_append (pieces : List (List Char)) :
    pieces.modifyHead ([] ++ ·) = pieces := by
  cases pieces with
  | nil => rfl
  | cons piece pieces => rfl

/-- A list is cut where it is cut with a blank more at a seam. Of the piece that is under way,
`before` has been read already. -/
theorem spread_cut {t : Nesting} {before front back : List Char} {blank : Char}
    (hblank : Text.isBlank blank = true) (ht : Nesting.top.advanceAll before = t)
    (hseam : Seam (before ++ front) back) :
    List.Forall₂ Spread ((cut t (front ++ back)).modifyHead (before ++ ·))
      ((cut t (front ++ blank :: back)).modifyHead (before ++ ·)) := by
  have hsame : ∀ pieces : List (List Char), List.Forall₂ Spread pieces pieces :=
    fun _ => List.forall₂_same.mpr fun _ _ => .inl rfl
  induction front generalizing t before with
  | nil =>
    -- the blank belongs to the piece under way
    obtain ⟨piece, later, hcut⟩ := List.exists_cons_of_ne_nil (cut_ne_nil t back)
    have hplain := plain_of_isBlank hblank
    have hnot : ¬ (blank = separator ∧ (t.advance blank).isTop = true) := by
      rintro ⟨rfl, -⟩
      exact absurd hplain (by unfold Nesting.Plain; decide)
    have hcut' : cut t (blank :: back) = (blank :: piece) :: later := by
      rw [cut, if_neg hnot, Nesting.advance_of_plain hplain, hcut]
      rfl
    obtain ⟨after, hback⟩ := cut_head_prefix hcut
    rw [List.nil_append, List.nil_append, hcut, hcut']
    refine .cons (.inr ⟨before, piece, blank, hblank, ?_, rfl, rfl⟩) (hsame later)
    rw [List.append_nil, hback] at hseam
    exact @Seam.inner before piece [] after hseam rfl
  | cons c front ih =>
    have hread : Nesting.top.advanceAll (before ++ [c]) = t.advance c := by
      rw [Nesting.advanceAll_append, ht]
      rfl
    rw [List.append_cons] at hseam
    simp only [List.cons_append, cut]
    split
    · -- the piece under way ends before the seam
      rename_i hseparates
      have htop := Nesting.eq_top_of_isTop hseparates.2
      have hunquoted : Nesting.Unquoted (before ++ [c]) := by
        rw [Nesting.Unquoted, hread, htop]
        rfl
      have hlater := @ih _ [] htop.symm (hseam.behind hunquoted)
      rw [modifyHead_nil_append, modifyHead_nil_append] at hlater
      exact .cons (.inl rfl) hlater
    · have hpieces := ih hread hseam
      simpa [Function.comp_def] using hpieces

/-- A list with one blank more at a seam has the same segments, one of them with the blank. -/
theorem spread_all {raw raw' : String} (hne : raw ≠ "") (h : Loosened raw.toList raw'.toList) :
    List.Forall₂ (fun segment segment' => Spread segment.text.toList segment'.text.toList)
      (all raw) (all raw') := by
  obtain ⟨front, back, blank, hblank, hseam, hraw, hraw'⟩ := h
  have hfull : raw.isEmpty = false := by
    rw [Bool.eq_false_iff, ne_eq, String.isEmpty_iff]
    exact hne
  have hfull' : raw'.isEmpty = false := by
    rw [Bool.eq_false_iff, ne_eq, String.isEmpty_iff]
    rintro rfl
    simp at hraw'
  have hcut := @spread_cut .top [] front back blank hblank rfl hseam
  rw [modifyHead_nil_append, modifyHead_nil_append] at hcut
  have hplaced := @forall₂_place _ (fun _ _ => True) _ _ (fun _ _ => trivial) hcut 0 0 trivial
  unfold all
  rw [hfull, hfull', hraw, hraw']
  exact hplaced.imp fun _ _ hsegment => hsegment.1

end Segment

end Formula
