import Formula.Proofs.Token.Front
import Formula.Proofs.Token.Tiling

/-! # Tokens written anew

A blank ends every lexeme, and a lexeme of a kind is read back as one of that kind before whatever
ends lexemes. So tokens that are written one after the other, with a space between any two, are read
again.
-/

namespace Formula

namespace Scan

/-- A lexeme is read back before what ends lexemes. -/
theorem heads_of_fits {kind : Token.Kind} {lexeme rest : List Char} (h : kind.Fits lexeme)
    (hrest : ∀ d ∈ rest.head?, Ends d) : Heads kind lexeme rest := by
  cases kind with
  | number value => exact heads_number h.1 fun d hd => (hrest d hd).1
  | string =>
    obtain ⟨inside, rfl, hinside⟩ := h
    exact heads_string hinside rest
  | identifier => exact heads_identifier h fun d hd => (hrest d hd).2.1
  | operator => exact heads_operator h fun c d _ hd => (hrest d hd).2.2 c
  | opening =>
    rcases h with rfl | rfl
    · exact heads_opening rest
    · exact ⟨'[', rest, rfl, by decide, rfl⟩
  | closing =>
    rcases h with rfl | rfl
    · exact heads_closing rest
    · exact ⟨']', rest, rfl, by decide, rfl⟩
  | separator =>
    obtain rfl := h
    exact ⟨separator, rest, rfl, by decide, rfl⟩

end Scan

/-- What a token is, wherever it stands. -/
def Token.content (token : Token) : Token.Kind × String :=
  (token.kind, token.text)

namespace Cursor

variable {tokens : List Token}

/-- A token that is written before what ends lexemes is read again. -/
theorem next_of_lexeme {token : Token} (h : token.kind.Fits token.lexeme) (rest : List Char)
    (hrest : ∀ d ∈ rest.head?, Scan.Ends d) (position : Nat) :
    ∃ token', token'.content = token.content ∧
      (Cursor.mk (token.lexeme ++ rest) position).next =
        (.ok (some token'), ⟨rest, position + token.lexeme.length⟩) := by
  refine ⟨_, ?_, next_of_heads (Scan.heads_of_fits h hrest) position⟩
  rw [Token.content, Token.content, token.textOf_lexeme]

/-- A blank before the first token is passed over. -/
theorem Reads.behind_blank {token : Token} {blank : Char} {cs : List Char} {position : Nat}
    {c : Cursor} (hblank : Text.isBlank blank = true)
    (h : (Cursor.mk cs (position + 1)).Reads (token :: tokens) c) :
    (Cursor.mk (blank :: cs) position).Reads (token :: tokens) c := by
  cases h with
  | cons hnext hrest =>
    rw [← next_blank_cons hblank] at hnext
    exact .cons hnext hrest

/-- Tokens with spaces between them are read again, up to the end. -/
theorem exists_reads_spaced (h : ∀ token ∈ tokens, token.kind.Fits token.lexeme) (position : Nat) :
    ∃ found c, (Cursor.mk ([' '].intercalate (tokens.map Token.lexeme)) position).Reads found c ∧
      c.rest = [] ∧ found.map Token.content = tokens.map Token.content := by
  induction tokens generalizing position with
  | nil => exact ⟨[], _, .nil, rfl, rfl⟩
  | cons token tokens ih =>
    have hfits := h token List.mem_cons_self
    have hlater := fun later hmem => h later (List.mem_cons_of_mem token hmem)
    cases tokens with
    | nil =>
      obtain ⟨found, hcontent, hnext⟩ := next_of_lexeme hfits [] nofun position
      rw [List.append_nil] at hnext
      rw [List.map_singleton, List.intercalate_singleton]
      refine ⟨[found], _, reads_one hnext, rfl, ?_⟩
      rw [List.map_singleton, List.map_singleton, hcontent]
    | cons next tokens =>
      have hspace : Text.isBlank ' ' = true := by decide
      have hends : ∀ cs : List Char, ∀ d ∈ (' ' :: cs).head?, Scan.Ends d := by
        rintro cs _ ⟨⟩
        exact Scan.ends_of_blank hspace
      obtain ⟨first, hcontent, hnext⟩ := next_of_lexeme hfits _ (hends _) position
      obtain ⟨found, c, hreads, hend, hcontents⟩ := ih hlater (position + token.lexeme.length + 1)
      -- there is another token behind the space
      obtain ⟨second, others, rfl⟩ : ∃ second others, found = second :: others := by
        cases found with
        | nil => cases hcontents
        | cons second others => exact ⟨second, others, rfl⟩
      rw [List.map_cons, List.map_cons, List.intercalate_cons_cons, List.append_assoc,
        List.singleton_append]
      refine ⟨first :: second :: others, c, .cons hnext (hreads.behind_blank hspace), hend, ?_⟩
      rw [List.map_cons, hcontent, hcontents]
      rfl

/-- The sources of tokens, joined by spaces. -/
def respaced (text : String) (tokens : List Token) : String :=
  " ".intercalate (tokens.map fun token => String.ofList (token.source text.toList))

theorem toList_respaced {text : String}
    (h : ∀ token ∈ tokens, token.source text.toList = token.lexeme) :
    (respaced text tokens).toList = [' '].intercalate (tokens.map Token.lexeme) := by
  rw [respaced, String.toList_intercalate, List.map_map]
  congr 1
  refine List.map_congr_left ?_
  intro token hmem
  rw [Function.comp_apply, String.toList_ofList, h token hmem]

/-- Tokens that have been read of a text, be it to its end or not, are the tokens of their sources
joined by spaces, but for their places. -/
theorem reads_respaced {text : String} {c : Cursor} (h : (ofText text).Reads tokens c) :
    ∃ found c' last, (ofText (respaced text tokens)).Reads found c' ∧
      c'.next = (.ok none, last) ∧ found.map Token.content = tokens.map Token.content := by
  obtain ⟨found, c', hreads, hrest, hcontents⟩ := exists_reads_spaced h.fits 0
  refine ⟨found, c', _, ?_, next_of_nil ?_, hcontents⟩
  · rw [ofText, toList_respaced (h.source_eq (on_ofText text))]
    exact hreads
  · rw [skipBlanks, hrest]
    rfl

/-- Lexemes with nothing between them, where a longer one might have been read. -/
def crowdedText : String := "a.b<=1.e2.5'['!='x'-"

theorem reads_respaced_crowded :
    ∃ tokens c, (ofText crowdedText).Reads tokens c ∧
      respaced crowdedText tokens = "a.b <= 1.e2 .5 '[' != 'x' -" ∧
      ∃ found c' last, (ofText "a.b <= 1.e2 .5 '[' != 'x' -").Reads found c' ∧
        c'.next = (.ok none, last) ∧ found.map Token.content = tokens.map Token.content := by
  have hending : (ofText crowdedText).tokens.2.1 = .ok () := by decide +kernel
  obtain ⟨c, hreads, -⟩ := reads_of_ending hending
  have hspaced : respaced crowdedText (ofText crowdedText).tokens.1 =
      "a.b <= 1.e2 .5 '[' != 'x' -" := by decide +kernel
  have hfound := reads_respaced hreads
  rw [hspaced] at hfound
  exact ⟨_, c, hreads, hspaced, hfound⟩

end Cursor

end Formula
