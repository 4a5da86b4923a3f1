import Formula.Proofs.Pieces
import Formula.Proofs.Token.Front
import Formula.Proofs.Tree.Balance
import Mathlib.Data.List.Basic

/-! # Lists are cut where their tokens say

A list is cut by a count over its characters, which knows nothing of tokens. Token by token the count
goes where the delimiters among the tokens take it, and a separator that no string holds is a token of
its own. So the cuts are the separator tokens before which as much is closed as is opened, and what
stands between two cuts reads on its own as it reads in the list.
-/

namespace Formula

/-! ## Delimiters among tokens -/

namespace Token

/-- The token is the delimiter `text`. -/
def isClosing (token : Token) (text : String) : Bool :=
  token.kind = .closing && token.text = text

/-- As many brackets and as many parentheses are closed as are opened. -/
def Balanced (tokens : List Token) : Prop :=
  tokens.countP (·.isOpening "[") = tokens.countP (·.isClosing "]") ∧
    tokens.countP (·.isOpening "(") = tokens.countP (·.isClosing ")")

theorem Kind.isLevel_or (kind : Token.Kind) :
    kind.IsLevel ∨ kind = .opening ∨ kind = .closing ∨ kind = .separator := by
  cases kind <;> simp [IsLevel]

end Token

namespace Nesting

variable {t : Nesting} {tokens : List Token}

/-- The nesting behind the tokens, by the delimiters among them. -/
def passing (t : Nesting) (tokens : List Token) : Nesting where
  brackets := t.brackets + tokens.countP (·.isOpening "[") - tokens.countP (·.isClosing "]")
  parens := t.parens + tokens.countP (·.isOpening "(") - tokens.countP (·.isClosing ")")
  quoted := t.quoted

@[simp]
theorem passing_nil (t : Nesting) : t.passing [] = t := by
  simp [passing]

theorem passing_cons (t : Nesting) (token : Token) (tokens : List Token) :
    t.passing (token :: tokens) = (t.passing [token]).passing tokens := by
  simp only [passing, List.countP_cons, List.countP_nil, mk.injEq, and_true]
  constructor
  · push_cast
    omega
  · push_cast
    omega

theorem isTop_passing_top : (top.passing tokens).isTop = true ↔ Token.Balanced tokens := by
  simp [isTop, passing, top, Token.Balanced]
  omega

end Nesting

namespace Cursor

variable {t : Nesting} {c c' c₁ c₂ : Cursor} {token : Token} {tokens block : List Token}
  {blanks lexeme front back cs : List Char}

theorem separator_not_mem_of_blank (h : ∀ d ∈ cs, Text.isBlank d = true) : separator ∉ cs :=
  fun hmem => plain_of_isBlank (h separator hmem) (by decide)

/-- A token takes the nesting where it says as a delimiter. -/
theorem Cuts.advanceAll (hcuts : c.Cuts blanks lexeme token c') (hquoted : t.quoted = false) :
    t.advanceAll (blanks ++ lexeme) = t.passing [token] := by
  have hblanks : t.advanceAll blanks = t :=
    (passes_of_blank hcuts.blank (Int.le_refl t.parens)).behind
  have hfits := hcuts.fits
  have htext := hcuts.text_eq
  rw [Nesting.advanceAll_append, hblanks]
  rcases token.kind.isLevel_or with hlevel | hkind | hkind | hkind
  · rw [(passes_of_level hlevel hfits hquoted (Int.le_refl t.parens)).behind]
    simp [Nesting.passing, Token.isOpening, Token.isClosing, hlevel.1, hlevel.2.1]
  · rw [hkind] at hfits htext
    rcases hfits with rfl | rfl
    all_goals
      simp [Nesting.passing, Token.isOpening, Token.isClosing, hkind, htext, Token.Kind.textOf,
        Nesting.advance, hquoted, quote]
  · rw [hkind] at hfits htext
    rcases hfits with rfl | rfl
    all_goals
      simp [Nesting.passing, Token.isOpening, Token.isClosing, hkind, htext, Token.Kind.textOf,
        Nesting.advance, hquoted, quote]
  · rw [hkind] at hfits
    cases hfits
    rw [Nesting.advanceAll_cons, Nesting.advance_separator]
    simp [Nesting.passing, Token.isOpening, Token.isClosing, hkind]

theorem Cuts.eq_of_separator (hcuts : c.Cuts blanks lexeme token c')
    (hkind : token.kind = .separator) : lexeme = [separator] := by
  have hfits := hcuts.fits
  rw [hkind] at hfits
  exact hfits

/-- Over the tokens that are read, the nesting goes where their delimiters take it. -/
theorem Reads.advanceAll (h : c.Reads tokens c') (hquoted : t.quoted = false)
    (hrest : c.rest = cs ++ c'.rest) : t.advanceAll cs = t.passing tokens := by
  induction h generalizing t cs with
  | @nil c =>
    have hnil : cs = [] := List.append_cancel_right (hrest.symm.trans (List.nil_append _).symm)
    rw [hnil, Nesting.passing_nil, Nesting.advanceAll_nil]
  | @cons c c₁ c' token tokens hnext hreads ih =>
    obtain ⟨blanks, lexeme, hcuts⟩ := cuts_of_next hnext
    obtain ⟨between, hbetween⟩ := hreads.suffix
    have hcs : cs = (blanks ++ lexeme) ++ between := by
      refine List.append_cancel_right (hrest.symm.trans ?_)
      rw [hcuts.rest_eq, ← hbetween]
      simp only [List.append_assoc]
    have hlater : (t.passing [token]).advanceAll between = (t.passing [token]).passing tokens :=
      ih hquoted hbetween.symm
    rw [hcs, Nesting.advanceAll_append, hcuts.advanceAll hquoted, hlater, ← Nesting.passing_cons]

/-! ## Separators -/

/-- A separator within a token, but not within a string, is the token. -/
theorem Cuts.eq_separator (hcuts : c.Cuts blanks lexeme token c') (hquoted : t.quoted = false)
    (heq : blanks ++ lexeme = front ++ separator :: back)
    (hopen : (t.advanceAll front).quoted = false) :
    token.kind = .separator ∧ front = blanks ∧ back = [] := by
  have hblanks := separator_not_mem_of_blank hcuts.blank
  have hfits := hcuts.fits
  have hlexeme : separator ∈ lexeme := by
    have hmem : separator ∈ blanks ++ lexeme := by simp [heq]
    exact (List.mem_append.mp hmem).resolve_left hblanks
  rcases token.kind.isLevel_or with hlevel | hkind | hkind | hkind
  · -- a token that is no delimiter holds a separator between quotes only
    have hpasses := (passes_of_blank hcuts.blank (Int.le_refl t.parens)).append
      (passes_of_level hlevel hfits hquoted (Int.le_refl t.parens))
    rw [hpasses.separators front back heq] at hopen
    cases hopen
  · rw [hkind] at hfits
    rcases hfits with rfl | rfl
    · exact absurd hlexeme (by decide)
    · exact absurd hlexeme (by decide)
  · rw [hkind] at hfits
    rcases hfits with rfl | rfl
    · exact absurd hlexeme (by decide)
    · exact absurd hlexeme (by decide)
  · rw [hkind] at hfits
    cases hfits
    have hsame := (List.append_cons_inj_of_notMem hblanks (by simp)).mp heq
    exact ⟨hkind, hsame.1.symm, hsame.2.2.symm⟩

/-- A separator that no string holds is a token. -/
theorem Reads.exists_separator (h : c.Reads tokens c') (hend : separator ∉ c'.rest)
    (hquoted : t.quoted = false) (hrest : c.rest = front ++ separator :: back)
    (hopen : (t.advanceAll front).quoted = false) :
    ∃ block token later c₁ c₂, tokens = block ++ token :: later ∧ c.Reads block c₁ ∧
      c₁.next = (.ok (some token), c₂) ∧ token.kind = .separator ∧ c₂.rest = back ∧
        c₂.Reads later c' := by
  induction h generalizing t front with
  | nil =>
    rw [hrest] at hend
    exact absurd (by simp) hend
  | @cons c c₁ c' token tokens hnext hreads ih =>
    obtain ⟨blanks, lexeme, hcuts⟩ := cuts_of_next hnext
    have heq : (blanks ++ lexeme) ++ c₁.rest = front ++ separator :: back := by
      rw [← hrest, hcuts.rest_eq, List.append_assoc]
    rcases append_cons_cases heq with ⟨more, hfront, hmore⟩ | ⟨more, hlexeme, hback⟩
    · -- behind the first token
      rw [hfront, Nesting.advanceAll_append, hcuts.advanceAll hquoted] at hopen
      have hquoted' : (t.passing [token]).quoted = false := hquoted
      obtain ⟨block, found, later, c₂, c₃, htokens, hblock, hfound⟩ := ih hend hquoted' hmore hopen
      exact ⟨token :: block, found, later, c₂, c₃, by rw [htokens, List.cons_append],
        .cons hnext hblock, hfound⟩
    · obtain ⟨hkind, _, rfl⟩ := hcuts.eq_separator hquoted hlexeme hopen
      exact ⟨[], token, tokens, c, c₁, rfl, .nil, hnext, hkind, hback.symm, hreads⟩

/-- A separator token stands where the tokens before it have taken the nesting. -/
theorem Reads.before_separator (h : c.Reads block c₁) (hnext : c₁.next = (.ok (some token), c₂))
    (hkind : token.kind = .separator) :
    ∃ front, c.rest = front ++ separator :: c₂.rest ∧ token.position = c.position + front.length ∧
      ∀ t : Nesting, t.quoted = false → t.advanceAll front = t.passing block := by
  obtain ⟨blanks, lexeme, hcuts⟩ := cuts_of_next hnext
  obtain ⟨cs, hcs⟩ := h.suffix
  have hlexeme := hcuts.eq_of_separator hkind
  have hmoved := h.position_add
  have hposition := hcuts.position_eq
  refine ⟨cs ++ blanks, ?_, ?_, ?_⟩
  · rw [← hcs, hcuts.rest_eq, hlexeme]
    simp
  · rw [← hcs, List.length_append] at hmoved
    rw [List.length_append]
    omega
  · intro t hquoted
    rw [Nesting.advanceAll_append, h.advanceAll hquoted hcs.symm]
    exact (passes_of_blank hcuts.blank (Int.le_refl (t.passing block).parens)).behind

end Cursor

/-! ## Cuts and segments -/

namespace Segment

variable {t : Nesting} {pieces : List (List Char)} {raw : String} {tokens : List Token}
  {c c' : Cursor}

/-- The list is cut at the character behind `place` others: another segment than the first begins
after it. -/
def CutsAt (raw : String) (place : Nat) : Prop :=
  ∃ segment ∈ (all raw).tail, segment.start = place + 1

/-- The token lies in the segment. -/
def spans (segment : Segment) (token : Token) : Bool :=
  segment.start ≤ token.position ∧
    token.position + token.length ≤ segment.start + segment.text.length

theorem start_le_of_mem_place {start : Nat} {segment : Segment} (h : segment ∈ place start pieces) :
    start ≤ segment.start := by
  obtain ⟨offset, hstart, _⟩ := standsAt_of_mem_place h
  omega

/-- The pieces of a division other than the first begin behind the separators on top. -/
theorem Division.start_iff (h : Division t pieces) (start n : Nat) :
    (∃ segment ∈ (place start pieces).tail, segment.start = start + n + 1) ↔
      ∃ before after, [separator].intercalate pieces = before ++ separator :: after ∧
        before.length = n ∧ (t.advanceAll before).isTop = true := by
  induction h generalizing start n with
  | @last t piece hwhole =>
    constructor
    · rintro ⟨segment, hmem, _⟩
      cases hmem
    · rintro ⟨before, after, heq, _, htop⟩
      rw [List.intercalate_singleton] at heq
      rw [hwhole before after heq] at htop
      cases htop
  | @more t piece rest hwhole hclosed hrest ih =>
    obtain ⟨first, others, rfl⟩ := List.exists_cons_of_ne_nil hrest.ne_nil
    have hbehind := Nesting.eq_top_of_isTop hclosed
    rw [intercalate_cons_of_ne_nil piece hrest.ne_nil]
    show (∃ segment ∈ place (start + piece.length + 1) (first :: others), _) ↔ _
    constructor
    · rintro ⟨segment, hmem, hstart⟩
      rcases List.mem_cons.mp hmem with rfl | hmem
      · have hlength : start + piece.length + 1 = start + n + 1 := hstart
        exact ⟨piece, _, rfl, by omega, hclosed⟩
      · have hlater := start_le_of_mem_place hmem
        obtain ⟨before, after, heq, hlength, htop⟩ :=
          (ih (start + piece.length + 1) (n - piece.length - 1)).mp ⟨segment, hmem, by omega⟩
        refine ⟨piece ++ separator :: before, after, ?_, ?_, ?_⟩
        · rw [heq, List.append_assoc, List.cons_append]
        · rw [List.length_append, List.length_cons]
          omega
        · rw [Nesting.advanceAll_append, hbehind, Nesting.advanceAll_cons,
            Nesting.advance_separator]
          exact htop
    · rintro ⟨before, after, heq, hlength, htop⟩
      rcases append_cons_cases heq with ⟨more, rfl, hmore⟩ | ⟨more, hpiece, _⟩
      · cases more with
        | nil =>
          rw [List.append_nil] at hlength
          exact ⟨_, List.mem_cons_self, by rw [hlength]⟩
        | cons d more =>
          rw [List.cons_append, List.cons.injEq] at hmore
          obtain ⟨rfl, hmore⟩ := hmore
          rw [Nesting.advanceAll_append, hbehind, Nesting.advanceAll_cons,
            Nesting.advance_separator] at htop
          rw [List.length_append, List.length_cons] at hlength
          obtain ⟨segment, hmem, hstart⟩ :=
            (ih (start + piece.length + 1) more.length).mpr ⟨more, after, hmore, rfl, htop⟩
          exact ⟨segment, List.mem_cons_of_mem _ hmem, by omega⟩
      · rw [hwhole before more hpiece] at htop
        cases htop

/-- A list is cut at its separators on top. -/
theorem cutsAt_iff (raw : String) (place : Nat) :
    CutsAt raw place ↔ ∃ before after, raw.toList = before ++ separator :: after ∧
      before.length = place ∧ (Nesting.top.advanceAll before).isTop = true := by
  unfold CutsAt all
  split
  · rename_i hempty
    rw [String.isEmpty_iff.mp hempty]
    constructor
    · rintro ⟨segment, hmem, _⟩
      cases hmem
    · rintro ⟨before, after, heq, _⟩
      simp at heq
  · have hstart := (division_cut .top raw.toList).start_iff 0 place
    rw [intercalate_cut, Nat.zero_add] at hstart
    exact hstart

theorem ends_of_separator {cs : List Char} : ∀ d ∈ (separator :: cs).head?, Scan.Ends d := by
  intro d hd
  cases hd
  exact Scan.ends_of_delimiter (by simp)

/-- What is read up to the end of a piece are the tokens of the piece. -/
theorem tokens_of_reads {piece tail blanks : List Char} (h : c.Reads tokens c')
    (hrest : c.rest = piece ++ tail) (hrest' : c'.rest = blanks ++ tail)
    (hblanks : ∀ d ∈ blanks, Text.isBlank d = true) (htail : ∀ d ∈ tail.head?, Scan.Ends d) :
    (∃ behind, (Cursor.ofText (String.ofList piece)).tokens =
      (tokens.map (·.back c.position), .ok (), behind)) ∧
      ∀ token ∈ tokens, spans ⟨String.ofList piece, c.position⟩ token = true := by
  constructor
  · have hfront := h.front hrest hrest' htail (Nat.le_refl c.position)
    rw [Nat.sub_self] at hfront
    have hend := Cursor.next_of_blank hblanks (c'.position - c.position)
    rw [Cursor.ofText, String.toList_ofList]
    exact ⟨_, hfront.tokens_of_end hend⟩
  · intro token hmem
    have hmoved := h.position_add
    have hwithin := h.within.2 token hmem
    rw [hrest, hrest', List.length_append, List.length_append] at hmoved
    simp only [spans, String.length_ofList, decide_eq_true_eq]
    omega

/-- The pieces of a division have the tokens that lie in them. -/
theorem Division.tokens_eq (h : Division t pieces) (hquoted : t.quoted = false)
    (hreads : c.Reads tokens c') (hend : ∀ d ∈ c'.rest, Text.isBlank d = true)
    (hrest : c.rest = [separator].intercalate pieces) :
    ∀ segment ∈ place c.position pieces, ∃ behind, (Cursor.ofText segment.text).tokens =
      ((tokens.filter segment.spans).map (·.back segment.start), .ok (), behind) := by
  -- from where the first piece begins, over the tokens from there on
  induction h generalizing c tokens with
  | @last t piece _ =>
    intro segment hmem
    obtain rfl := List.mem_singleton.mp hmem
    rw [List.intercalate_singleton] at hrest
    have hpiece := tokens_of_reads hreads (hrest.trans (List.append_nil piece).symm)
      (List.append_nil c'.rest).symm hend (fun d hd => by cases hd)
    rw [List.filter_eq_self.mpr hpiece.2]
    exact hpiece.1
  | @more t piece rest _ hclosed hdivision ih =>
    rw [intercalate_cons_of_ne_nil piece hdivision.ne_nil] at hrest
    have hopen : (t.advanceAll piece).quoted = false := by
      rw [Nesting.eq_top_of_isTop hclosed]
      rfl
    obtain ⟨block, token, later, c₁, c₂, rfl, hblock, hnext, hkind, hlast, hlater⟩ :=
      hreads.exists_separator (Cursor.separator_not_mem_of_blank hend) hquoted hrest hopen
    obtain ⟨blanks, lexeme, hcuts⟩ := Cursor.cuts_of_next hnext
    have hlexeme : lexeme = [separator] := hcuts.eq_of_separator hkind
    have hmiddle : c₁.rest = blanks ++ separator :: [separator].intercalate rest := by
      rw [hcuts.rest_eq, hlexeme, hlast, List.singleton_append]
    have hpiece := tokens_of_reads hblock hrest hmiddle hcuts.blank ends_of_separator
    -- where the parts of the list end
    have hbehind : c₂.position = c.position + piece.length + 1 := by
      have hmoved := (hblock.append (Cursor.reads_one hnext)).position_add
      rw [hlast, hrest, List.length_append, List.length_cons] at hmoved
      omega
    have hearlier := (hblock.append (Cursor.reads_one hnext)).within.2
    have hlater' := hlater.within.2
    have htoken := hcuts.behind
    intro segment hmem
    rcases List.mem_cons.mp hmem with rfl | hmem
    · -- the separator and what follows it end behind the piece
      have hnone : (token :: later).filter (spans ⟨String.ofList piece, c.position⟩) = [] := by
        rw [List.filter_eq_nil_iff]
        intro other hother
        simp only [spans, String.length_ofList, decide_eq_true_eq]
        rcases List.mem_cons.mp hother with rfl | hother
        · omega
        · have hbegin := hlater' other hother
          omega
      rw [List.filter_append, List.filter_eq_self.mpr hpiece.2, hnone, List.append_nil]
      exact hpiece.1
    · -- the piece and the separator end before what follows it
      have hstart := start_le_of_mem_place hmem
      have hnone : (block ++ [token]).filter segment.spans = [] := by
        rw [List.filter_eq_nil_iff]
        intro other hother
        have hbegin := hearlier other hother
        simp only [spans, decide_eq_true_eq]
        omega
      rw [← hbehind] at hmem
      obtain ⟨behind, htokens⟩ := ih rfl hlater hlast segment hmem
      have hfilter : (block ++ token :: later).filter segment.spans = later.filter segment.spans := by
        rw [List.append_cons, List.filter_append, hnone, List.nil_append]
      rw [hfilter]
      exact ⟨behind, htokens⟩

/-- A list that has tokens is cut at the separators among them before which as much is closed as is
opened, and each of its segments has the tokens that lie in it. -/
theorem agrees_with_tokens {raw : String} {tokens : List Token} {behind : Cursor}
    (h : (Cursor.ofText raw).tokens = (tokens, .ok (), behind)) :
    (∀ place, CutsAt raw place ↔ ∃ before token after, tokens = before ++ token :: after ∧
      token.kind = .separator ∧ token.position = place ∧ Token.Balanced before) ∧
    ∀ segment ∈ all raw, ∃ behind, (Cursor.ofText segment.text).tokens =
      ((tokens.filter segment.spans).map (·.back segment.start), .ok (), behind) := by
  obtain ⟨c', hreads, hend⟩ := Cursor.reads_of_tokens h
  have hblank := Cursor.blank_of_next_none hend
  have hseparator := Cursor.separator_not_mem_of_blank hblank
  constructor
  · intro place
    rw [cutsAt_iff]
    constructor
    · rintro ⟨front, back, hraw, hlength, htop⟩
      have hopen : (Nesting.top.advanceAll front).quoted = false := by
        rw [Nesting.eq_top_of_isTop htop]
        rfl
      obtain ⟨block, token, later, c₁, c₂, htokens, hblock, hnext, hkind, hlast, _⟩ :=
        hreads.exists_separator hseparator rfl hraw hopen
      obtain ⟨front', hrest, hposition, hpassing⟩ := hblock.before_separator hnext hkind
      obtain rfl : front' = front := by
        rw [hlast] at hrest
        exact List.append_cancel_right (hrest.symm.trans hraw)
      rw [hpassing .top rfl] at htop
      refine ⟨block, token, later, htokens, hkind, ?_, Nesting.isTop_passing_top.mp htop⟩
      rw [hposition, hlength]
      exact Nat.zero_add place
    · rintro ⟨before, token, after, rfl, hkind, hposition, hbalanced⟩
      obtain ⟨c₁, hbefore, hafter⟩ := hreads.of_append
      cases hafter with
      | @cons _ c₂ _ _ _ hnext _ =>
        obtain ⟨front, hrest, hplace, hpassing⟩ := hbefore.before_separator hnext hkind
        refine ⟨front, c₂.rest, hrest, ?_, ?_⟩
        · rw [← hposition, hplace]
          exact (Nat.zero_add _).symm
        · rw [hpassing .top rfl]
          exact Nesting.isTop_passing_top.mpr hbalanced
  · intro segment hmem
    unfold all at hmem
    split at hmem
    · cases hmem
    · exact (division_cut .top raw.toList).tokens_eq rfl hreads hblank
        (intercalate_cut .top raw.toList).symm segment hmem

/-- Separators in a call, in a string and behind a bracket that closes nothing. -/
def mixedList : String := "f(x,y), '],(' ,a],b[,c"

theorem agrees_with_tokens_mixed :
    ∃ tokens behind, (Cursor.ofText mixedList).tokens = (tokens, .ok (), behind) ∧
      all mixedList = [⟨"f(x,y)", 0⟩, ⟨" '],(' ", 7⟩, ⟨"a],b[", 15⟩, ⟨"c", 21⟩] ∧
      (∃ before token after, tokens = before ++ token :: after ∧ token.kind = .separator ∧
        token.position = 20 ∧ Token.Balanced before) ∧
      ∃ behind, (Cursor.ofText "a],b[").tokens =
        ((tokens.filter (spans ⟨"a],b[", 15⟩)).map (·.back 15), .ok (), behind) := by
  have hending : (Cursor.ofText mixedList).tokens.2.1 = .ok () := by decide +kernel
  have htokens : (Cursor.ofText mixedList).tokens =
      ((Cursor.ofText mixedList).tokens.1, .ok (), (Cursor.ofText mixedList).tokens.2.2) := by
    rw [← hending]
  have hall : all mixedList = [⟨"f(x,y)", 0⟩, ⟨" '],(' ", 7⟩, ⟨"a],b[", 15⟩, ⟨"c", 21⟩] := by
    decide +kernel
  have hcut : CutsAt mixedList 20 := by
    unfold CutsAt
    rw [hall]
    exact ⟨⟨"c", 21⟩, by decide, rfl⟩
  have hagrees := agrees_with_tokens htokens
  exact ⟨_, _, htokens, hall, (hagrees.1 20).mp hcut,
    hagrees.2 ⟨"a],b[", 15⟩ (by rw [hall]; decide)⟩

end Segment

end Formula
