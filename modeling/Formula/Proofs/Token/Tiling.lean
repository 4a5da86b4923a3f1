import Formula.Proofs.Tree.Places

/-! # Tokens tile the text

Each token is a stretch of the text where it says, the next one begins behind it, and what lies
between two tokens are blanks. So the tokens of a text that is read to its end account for every
character of it. Any text is read to its end or to a fault, since each token takes a character at
least.
-/

namespace Formula

/-! ## Tokens as stretches of text -/

namespace Token

/-- What was written for the token: a string stands between quotes. -/
def lexeme (token : Token) : List Char :=
  match token.kind with
  | .string => quote :: token.text.toList ++ [quote]
  | _ => token.text.toList

/-- The stretch of the text that the token says it is. -/
def source (text : List Char) (token : Token) : List Char :=
  (text.drop token.position).take token.length

/-- The character behind `place` others belongs to the token. -/
def Covers (token : Token) (place : Nat) : Prop :=
  token.position ≤ place ∧ place < token.position + token.length

theorem textOf_lexeme (token : Token) : token.kind.textOf token.lexeme = token.text := by
  obtain ⟨kind, text, position, length⟩ := token
  cases kind with
  | string => simp [lexeme, Kind.textOf]
  | _ => exact String.ofList_toList

end Token

namespace Cursor

variable {text : List Char} {c c' : Cursor} {token : Token} {tokens : List Token}

theorem Cuts.eq_lexeme {blanks lexeme : List Char} (h : c.Cuts blanks lexeme token c') :
    lexeme = token.lexeme := by
  unfold Token.lexeme
  split
  · rename_i hkind
    have hfits := h.fits
    rw [hkind] at hfits
    obtain ⟨inside, rfl, -⟩ := hfits
    rw [h.text_eq, hkind]
    simp [Token.Kind.textOf]
  · rename_i hkind
    exact h.lexeme_eq hkind

/-- What was written for a token that is read is a lexeme of its kind. -/
theorem Reads.fits (h : c.Reads tokens c') : ∀ token ∈ tokens, token.kind.Fits token.lexeme := by
  induction h with
  | nil => exact fun _ => nofun
  | cons hnext _ ih =>
    obtain ⟨blanks, lexeme, hcuts⟩ := cuts_of_next hnext
    intro token hmem
    rcases List.mem_cons.mp hmem with rfl | hmem
    · exact hcuts.eq_lexeme ▸ hcuts.fits
    · exact ih token hmem

/-- Reading on a text does not leave it. -/
theorem Reads.on (h : c.Reads tokens c') (hc : c.On text) : c'.On text := by
  induction h with
  | nil => exact hc
  | cons hnext _ ih => exact ih (hc.of_next hnext)

/-! ## Where tokens stand -/

/-- Each token ends before the next begins. -/
theorem Reads.pairwise (h : c.Reads tokens c') :
    tokens.Pairwise fun a b => a.position + a.length ≤ b.position := by
  induction h with
  | nil => exact .nil
  | cons hnext hrest ih =>
    refine .cons ?_ ih
    intro later hlater
    have hfirst := (reads_one hnext).within.2 _ List.mem_cons_self
    have hbehind := hrest.within.2 later hlater
    obtain ⟨blanks, lexeme, hcuts⟩ := cuts_of_next hnext
    rw [← hcuts.behind]
    exact hbehind.1

/-- Each token stands where it says, as it was written. -/
theorem Reads.source_eq (h : c.Reads tokens c') (hc : c.On text) :
    ∀ token ∈ tokens, token.source text = token.lexeme := by
  induction h with
  | nil => exact fun _ => nofun
  | cons hnext _ ih =>
    intro token hmem
    rcases List.mem_cons.mp hmem with rfl | hmem
    · obtain ⟨blanks, lexeme, hcuts⟩ := cuts_of_next hnext
      have hstands := hc.standsAt_behind hcuts.rest_eq
      rw [Token.source, hcuts.position_eq, hcuts.length_eq, hstands.take_drop, hcuts.eq_lexeme]
    · exact ih (hc.of_next hnext) token hmem

/-- A character that is ahead of the cursor is one of the text. -/
theorem On.mem_rest {place : Nat} {d : Char} (hc : c.On text) (hplace : c.position ≤ place)
    (h : text[place]? = some d) : d ∈ c.rest := by
  obtain ⟨before, htext, hbefore⟩ := hc
  rw [htext, List.getElem?_append_right (by omega)] at h
  exact List.mem_of_getElem? h

/-- A character that has been passed over and belongs to no token is a blank. -/
theorem Reads.isBlank_of_not_covers (h : c.Reads tokens c') (hc : c.On text) {place : Nat}
    {d : Char} (hlow : c.position ≤ place) (hhigh : place < c'.position)
    (hchar : text[place]? = some d) (hnot : ∀ token ∈ tokens, ¬ token.Covers place) :
    Text.isBlank d = true := by
  induction h with
  | nil => omega
  | @cons c c₁ c' token tokens hnext hrest ih =>
    obtain ⟨blanks, lexeme, hcuts⟩ := cuts_of_next hnext
    have hposition := hcuts.position_eq
    have hbehind := hcuts.behind
    rcases Nat.lt_or_ge place token.position with hbefore | hafter
    · -- among the blanks before the token
      have hstands := hc.standsAt hcuts.rest_eq
      have hlt : place - c.position < blanks.length := by omega
      have hblank := hstands.getElem? hlt
      rw [Nat.add_sub_cancel' hlow, hchar] at hblank
      exact hcuts.blank d (List.mem_of_getElem? hblank.symm)
    · have hpassed : token.position + token.length ≤ place :=
        Nat.le_of_not_lt fun hlt => hnot token List.mem_cons_self ⟨hafter, hlt⟩
      exact ih (hc.of_next hnext) (by omega) hhigh
        fun later hlater => hnot later (List.mem_cons_of_mem token hlater)

/-! ## Every text is read -/

/-- A call that finds a token leaves a character behind at least. -/
theorem advances_of_next (h : c.next = (.ok (some token), c')) :
    c.position < c'.position ∧ c'.rest.length < c.rest.length := by
  obtain ⟨piece, hrest, hposition, hne⟩ := passes_of_next h
  have hpiece : 0 < piece.length := List.length_pos_iff.mpr (hne (Option.some_ne_none token))
  have hlength := congrArg List.length hrest
  rw [List.length_append] at hlength
  omega

/-- From wherever it stands, a cursor finds tokens up to the end of the text or to a fault. -/
theorem exists_reads (c : Cursor) :
    ∃ tokens c', c.Reads tokens c' ∧
      ((∃ last, c'.next = (.ok none, last)) ∨ ∃ e last, c'.next = (.error e, last)) := by
  -- on what is still to be read, of which each token takes a part
  induction hlength : c.rest.length using Nat.strong_induction_on generalizing c with
  | _ length ih =>
    rcases hnext : c.next with ⟨outcome, c₁⟩
    match outcome with
    | .error e => exact ⟨[], c, .nil, .inr ⟨e, c₁, hnext⟩⟩
    | .ok none => exact ⟨[], c, .nil, .inl ⟨c₁, hnext⟩⟩
    | .ok (some token) =>
      have hless := (advances_of_next hnext).2
      obtain ⟨tokens, c', hreads, hend⟩ := ih c₁.rest.length (hlength ▸ hless) c₁ rfl
      exact ⟨token :: tokens, c', .cons hnext hreads, hend⟩

/-- The end of a text is where all its characters have been counted. -/
theorem On.eq_of_end {last : Cursor} (hc : c.On text) (h : c.next = (.ok none, last)) :
    last = ⟨[], text.length⟩ := by
  rw [hc.length_eq]
  exact eq_of_next_none h

/-- The tokens of a text that is read to its end are stretches of it, one behind the other, with
blanks before, between and behind them, as they were written; the cursor ends behind the last
character. Whatever the text, each token leads further on, and the call that finds the end or a
fault comes after no more tokens than there are characters. -/
theorem tokens_tile (text : String) :
    (∀ tokens c last, (ofText text).Reads tokens c → c.next = (.ok none, last) →
      (∀ token ∈ tokens, 0 < token.length ∧ token.position + token.length ≤ text.length ∧
        token.source text.toList = token.lexeme) ∧
      (tokens.Pairwise fun a b => a.position + a.length ≤ b.position) ∧
      (∀ place d, text.toList[place]? = some d → (∀ token ∈ tokens, ¬ token.Covers place) →
        Text.isBlank d = true) ∧
      last = ⟨[], text.length⟩) ∧
    (∀ tokens c token c', (ofText text).Reads tokens c → c.next = (.ok (some token), c') →
      c.position < c'.position) ∧
    ∃ tokens c, (ofText text).Reads tokens c ∧ tokens.length + 1 ≤ text.length + 1 ∧
      ((∃ last, c.next = (.ok none, last)) ∨ ∃ e last, c.next = (.error e, last)) := by
  have hstart := on_ofText text
  rw [← String.length_toList]
  refine ⟨?_, fun _ _ _ _ _ hnext => (advances_of_next hnext).1, ?_⟩
  · intro tokens c last hreads hend
    have hc := hreads.on hstart
    have hlength := hc.length_eq
    refine ⟨?_, hreads.pairwise, ?_, hc.eq_of_end hend⟩
    · intro token hmem
      obtain ⟨-, hpos, hle⟩ := hreads.within.2 token hmem
      exact ⟨hpos, by omega, hreads.source_eq hstart token hmem⟩
    · intro place d hchar hnot
      rcases Nat.lt_or_ge place c.position with hpassed | hahead
      · exact hreads.isBlank_of_not_covers hstart (Nat.zero_le place) hpassed hchar hnot
      · exact blank_of_next_none hend d (hc.mem_rest hahead hchar)
  · obtain ⟨tokens, c, hreads, hend⟩ := exists_reads (ofText text)
    exact ⟨tokens, c, hreads, Nat.succ_le_succ hreads.length_le, hend⟩

/-- Characters of several bytes, a string with delimiters, and lexemes with nothing between them. -/
def accentedText : String := " 'été, [' +.5e1<=ñ.a\t"

theorem tokens_tile_accented :
    ∃ tokens c last, (ofText accentedText).Reads tokens c ∧ c.next = (.ok none, last) ∧
      tokens.map (·.text) = ["été, [", "+", ".5e1", "<=", "ñ.a"] ∧
      (∀ token ∈ tokens, token.source accentedText.toList = token.lexeme) ∧
      last = ⟨[], 21⟩ := by
  have hending : (ofText accentedText).tokens.2.1 = .ok () := by decide +kernel
  obtain ⟨c, hreads, hend⟩ := reads_of_ending hending
  obtain ⟨hsources, -, -, hlast⟩ := (tokens_tile accentedText).1 _ _ _ hreads hend
  refine ⟨_, c, _, hreads, hend, by decide +kernel, ?_, hlast⟩
  exact fun token hmem => (hsources token hmem).2.2

end Cursor

end Formula
