import Formula.Operator
import Formula.Proofs.Text.Classes
import Formula.Proofs.Token.Cursor

/-! # Lexemes read back

A lexeme is read back as it was written if what follows it could not be part of it. What may follow
differs from kind to kind: a number ends before any character that is not numeric, a name before any
character that cannot continue it, an operator before any character it makes no longer one with.
-/

namespace Formula

/-! ## The end of a run -/

theorem takeWhile_append_of_head {p : Char → Bool} {rest : List Char}
    (hrest : ∀ c ∈ rest.head?, p c = false) (cs : List Char) :
    (cs ++ rest).takeWhile p = cs.takeWhile p := by
  have hstop : rest.takeWhile p = [] := by
    cases rest with
    | nil => rfl
    | cons c rest => simp [hrest c rfl]
  rw [List.takeWhile_append, hstop, List.append_nil]
  split
  · rename_i hlength
    exact ((List.takeWhile_prefix p).eq_of_length hlength).symm
  · rfl

theorem dropWhile_append_of_head {p : Char → Bool} {rest : List Char}
    (hrest : ∀ c ∈ rest.head?, p c = false) (cs : List Char) :
    (cs ++ rest).dropWhile p = cs.dropWhile p ++ rest := by
  have hstop : rest.dropWhile p = rest := by
    cases rest with
    | nil => rfl
    | cons c rest => simp [hrest c rfl]
  rw [List.dropWhile_append, hstop]
  split
  · rename_i hnil
    rw [List.isEmpty_iff.mp hnil, List.nil_append]
  · rfl

/-- A run of the class, and what does not go on with it. -/
theorem takeWhile_of_run {p : Char → Bool} {run rest : List Char} (hrun : ∀ c ∈ run, p c = true)
    (hrest : ∀ c ∈ rest.head?, p c = false) : (run ++ rest).takeWhile p = run := by
  rw [takeWhile_append_of_head hrest, List.takeWhile_eq_self_iff.mpr hrun]

theorem dropWhile_of_run {p : Char → Bool} {run rest : List Char} (hrun : ∀ c ∈ run, p c = true)
    (hrest : ∀ c ∈ rest.head?, p c = false) : (run ++ rest).dropWhile p = rest := by
  rw [dropWhile_append_of_head hrest, List.dropWhile_eq_nil_iff.mpr hrun, List.nil_append]

namespace Scan

/-! ## Numbers -/

theorem isDigit_eq_false_of_not_isNumeric {c : Char} (h : ¬ IsNumeric c) :
    Decimal.isDigit c = false :=
  Bool.eq_false_iff.mpr fun hdigit => h (Or.inl hdigit)

section Ending

variable {rest : List Char} (hrest : ∀ c ∈ rest.head?, ¬ IsNumeric c)

include hrest

theorem mantissa_append_of_head (cs : List Char) :
    mantissa (cs ++ rest) = ((mantissa cs).1, (mantissa cs).2 ++ rest) := by
  have hdigit : ∀ c ∈ rest.head?, Decimal.isDigit c = false :=
    fun c hc => isDigit_eq_false_of_not_isNumeric (hrest c hc)
  simp only [mantissa, takeWhile_append_of_head hdigit, dropWhile_append_of_head hdigit]
  cases cs.dropWhile Decimal.isDigit with
  | nil =>
    cases rest with
    | nil => rfl
    | cons c rest =>
      have hdot : c ≠ '.' := by
        rintro rfl
        exact hrest '.' rfl (Or.inr (by decide))
      simp [hdot]
  | cons c others =>
    by_cases hdot : c = '.'
    · subst hdot
      simp only [List.cons_append, takeWhile_append_of_head hdigit,
        dropWhile_append_of_head hdigit]
    · simp [hdot]

theorem exponent_append_of_head (cs : List Char) :
    exponent (cs ++ rest) = ((exponent cs).1, (exponent cs).2.1, (exponent cs).2.2 ++ rest) := by
  have hdigit : ∀ c ∈ rest.head?, Decimal.isDigit c = false :=
    fun c hc => isDigit_eq_false_of_not_isNumeric (hrest c hc)
  have hsign : ∀ c ∈ rest.head?, c ≠ '+' ∧ c ≠ '-' ∧ c ≠ 'e' ∧ c ≠ 'E' := by
    intro c hc
    have hnot : c ∉ ['.', 'e', 'E', '+', '-'] := fun hmem => hrest c hc (Or.inr hmem)
    simp only [List.mem_cons, List.not_mem_nil, or_false, not_or] at hnot
    exact ⟨hnot.2.2.2.1, hnot.2.2.2.2, hnot.2.1, hnot.2.2.1⟩
  cases cs with
  | nil =>
    cases rest with
    | nil => rfl
    | cons c rest =>
      have hc := hsign c rfl
      simp [exponent, hc]
  | cons mark cs =>
    by_cases hmark : mark = 'e' ∨ mark = 'E'
    · simp only [List.cons_append, exponent, if_pos hmark]
      cases cs with
      | nil =>
        -- the mark is the last character, so what follows must not be its sign
        have htake := takeWhile_append_of_head hdigit []
        have hdrop := dropWhile_append_of_head hdigit []
        simp only [List.nil_append] at htake hdrop ⊢
        split
        · exact absurd rfl (hsign '+' rfl).1
        · exact absurd rfl (hsign '-' rfl).2.1
        · simp [htake, hdrop]
      | cons sign digits =>
        simp only [List.cons_append]
        by_cases hplus : sign = '+'
        · subst hplus
          simp [takeWhile_append_of_head hdigit, dropWhile_append_of_head hdigit]
        by_cases hminus : sign = '-'
        · subst hminus
          simp [takeWhile_append_of_head hdigit, dropWhile_append_of_head hdigit]
        have htake := takeWhile_append_of_head hdigit (sign :: digits)
        have hdrop := dropWhile_append_of_head hdigit (sign :: digits)
        simp only [List.cons_append] at htake hdrop
        simp [hplus, hminus, htake, hdrop]
    · simp [exponent, if_neg hmark]

/-- What follows a number does not change it if it begins with nothing a number goes on with. -/
theorem number_append_of_head (cs : List Char) :
    number (cs ++ rest) = ⟨(number cs).outcome, (number cs).lexeme, (number cs).rest ++ rest⟩ := by
  simp only [number, mantissa_append_of_head hrest, exponent_append_of_head hrest]

end Ending

/-- An exponent that can be read is one that a scan takes whole. -/
theorem exponent_of_readExponent? {mark : Char} {cs : List Char} {power : Int}
    (hmark : mark = 'e' ∨ mark = 'E') (h : Decimal.readExponent? cs = some power) :
    exponent (mark :: cs) = (mark :: cs, true, []) := by
  -- digits that are read are a run of their own, whatever the sign before them
  have hwhole : ∀ {digits : List Char} {x : Option Int},
      (if digits.isEmpty || !digits.all Decimal.isDigit then none else x) = some power →
        digits ≠ [] ∧ digits.takeWhile Decimal.isDigit = digits ∧
          digits.dropWhile Decimal.isDigit = [] := by
    intro digits x hread
    split at hread
    · cases hread
    rename_i hgood
    have hgood' : digits ≠ [] ∧ ∀ d ∈ digits, Decimal.isDigit d = true := by simpa using hgood
    exact ⟨hgood'.1, List.takeWhile_eq_self_iff.mpr hgood'.2,
      List.dropWhile_eq_nil_iff.mpr hgood'.2⟩
  simp only [Decimal.readExponent?] at h
  simp only [exponent, if_pos hmark]
  split at h
  · rcases hwhole h with ⟨hne, htake, hdrop⟩
    simp [htake, hdrop, hne]
  · rcases hwhole h with ⟨hne, htake, hdrop⟩
    simp [htake, hdrop, hne]
  · rename_i hplus hminus
    rcases hwhole h with ⟨hne, htake, hdrop⟩
    simp [htake, hdrop, hne]

/-- What is read behind a mantissa is an exponent. -/
theorem exponent_of_eq_some {mark : Char} {digits : List Char} {f : Int → Float} {value : Float}
    (h : (if mark = 'e' ∨ mark = 'E' then (Decimal.readExponent? digits).map f else none) =
      some value) :
    (mark = 'e' ∨ mark = 'E') ∧ ∃ power, Decimal.readExponent? digits = some power := by
  split at h
  · rcases Option.map_eq_some_iff.mp h with ⟨power, hpower, _⟩
    exact ⟨‹_›, power, hpower⟩
  · cases h

/-- A decimal that can be read is a mantissa, behind which stands nothing or an exponent. -/
theorem behind_mantissa_of_read? {cs : List Char} {value : Float}
    (h : Decimal.read? false cs = some value) :
    (mantissa cs).2 = [] ∨
      ∃ mark digits power, (mantissa cs).2 = mark :: digits ∧ (mark = 'e' ∨ mark = 'E') ∧
        Decimal.readExponent? digits = some power := by
  simp only [Decimal.read?, mantissa] at h ⊢
  generalize cs.dropWhile Decimal.isDigit = behind at h ⊢
  split at h
  · -- a point and a fraction
    rename_i fraction
    split at h
    · cases h
    show fraction.dropWhile Decimal.isDigit = [] ∨ ∃ mark digits power,
      fraction.dropWhile Decimal.isDigit = mark :: digits ∧ _
    simp only at h
    generalize fraction.dropWhile Decimal.isDigit = behind at h ⊢
    cases behind with
    | nil => exact Or.inl rfl
    | cons mark digits =>
      rcases exponent_of_eq_some h with ⟨hmark, power, hpower⟩
      exact Or.inr ⟨mark, digits, power, rfl, hmark, hpower⟩
  · -- digits only
    rename_i hdot
    split at h
    · cases h
    cases behind with
    | nil => exact Or.inl rfl
    | cons mark digits =>
      rcases exponent_of_eq_some h with ⟨hmark, power, hpower⟩
      refine Or.inr ⟨mark, digits, power, ?_, hmark, hpower⟩
      rcases hmark with rfl | rfl
      · rfl
      · rfl

/-- A decimal that can be read is one number. -/
theorem number_of_read? {cs : List Char} {value : Float}
    (h : Decimal.read? false cs = some value) : number cs = ⟨.ok (.number value), cs, []⟩ := by
  have hscan : (exponent (mantissa cs).2).2 = (true, []) := by
    rcases behind_mantissa_of_read? h with hnil | ⟨mark, digits, power, heq, hmark, hpower⟩
    · rw [hnil]
      rfl
    · rw [heq, exponent_of_readExponent? hmark hpower]
  have happend := number_append cs
  have hrest : (number cs).rest = [] := congrArg Prod.snd hscan
  have hlexeme : (number cs).lexeme = cs := by
    rw [hrest, List.append_nil] at happend
    exact happend
  have houtcome : (number cs).outcome = .ok (.number value) := by
    have hlexeme' : (mantissa cs).1 ++ (exponent (mantissa cs).2).1 = cs := hlexeme
    simp only [number, hscan, hlexeme', h, if_true]
  show (⟨(number cs).outcome, (number cs).lexeme, (number cs).rest⟩ : Scan) = _
  rw [houtcome, hlexeme, hrest]

/-- A decimal that can be read begins like a number. -/
theorem beginsNumber_of_read? {cs : List Char} {value : Float}
    (h : Decimal.read? false cs = some value) : BeginsNumber cs := by
  cases cs with
  | nil => cases h
  | cons c cs =>
    by_cases hdigit : Decimal.isDigit c = true
    · exact ⟨c, cs, hdigit, Or.inl rfl⟩
    have htake : (c :: cs).takeWhile Decimal.isDigit = [] := List.takeWhile_cons_of_neg hdigit
    have hdrop : (c :: cs).dropWhile Decimal.isDigit = c :: cs := List.dropWhile_cons_of_neg hdigit
    simp only [Decimal.read?, htake, hdrop] at h
    split at h
    · rename_i rest heq
      cases heq
      cases cs with
      | nil => simp at h
      | cons d cs =>
        by_cases hnext : Decimal.isDigit d = true
        · exact ⟨d, cs, hnext, Or.inr rfl⟩
        · simp [hnext] at h
    · simp at h

/-! ## Lexemes at the head of a text -/

/-- A scan of the text `lexeme ++ rest`, which does not begin with a blank, finds `lexeme`. -/
def Heads (kind : Token.Kind) (lexeme rest : List Char) : Prop :=
  ∃ first others, lexeme ++ rest = first :: others ∧ Text.isBlank first = false ∧
    ofChar first others = ⟨.ok kind, lexeme, rest⟩

theorem Heads.ne_nil {kind : Token.Kind} {lexeme rest : List Char} (h : Heads kind lexeme rest) :
    lexeme ≠ [] := by
  obtain ⟨first, others, _, _, hscan⟩ := h
  have hfits : kind.Fits (ofChar first others).lexeme := fits_of_ofChar (by rw [hscan])
  rw [hscan] at hfits
  exact Token.Kind.ne_nil_of_fits hfits

theorem heads_number {lexeme rest : List Char} {value : Float}
    (h : Decimal.read? false lexeme = some value) (hrest : ∀ c ∈ rest.head?, ¬ IsNumeric c) :
    Heads (.number value) lexeme rest := by
  have hnumber := number_append_of_head hrest lexeme
  rw [number_of_read? h] at hnumber
  cases lexeme with
  | nil => cases h
  | cons first others =>
    have hbegins := beginsNumber_of_read? h
    have hscan := ofChar_of_beginsNumber (hbegins.append rest)
    refine ⟨first, others ++ rest, rfl, ?_, hscan.trans hnumber⟩
    rcases hbegins.head with hdigit | rfl
    · exact Text.isBlank_eq_false_of_isDigit hdigit
    · decide

/-- A string ends at its first quote. -/
theorem string_append_quote {inside : List Char} (h : quote ∉ inside) (rest : List Char) :
    string (inside ++ quote :: rest) = ⟨.ok .string, quote :: inside ++ [quote], rest⟩ := by
  have hinside : ∀ c ∈ inside, (decide (c ≠ quote)) = true := by
    intro c hc
    exact decide_eq_true fun heq => h (heq ▸ hc)
  rw [string, List.takeWhile_append_of_pos hinside, List.dropWhile_append_of_pos hinside]
  simp

theorem heads_string {inside : List Char} (h : quote ∉ inside) (rest : List Char) :
    Heads .string (quote :: inside ++ [quote]) rest :=
  ⟨quote, inside ++ quote :: rest, by simp, by decide, string_append_quote h rest⟩

theorem heads_identifier {lexeme rest : List Char} (h : Token.Kind.identifier.Fits lexeme)
    (hrest : ∀ c ∈ rest.head?, Text.continuesName c = false) :
    Heads .identifier lexeme rest := by
  rcases h with ⟨first, others, rfl, hfirst, hothers⟩
  refine ⟨first, others ++ rest, rfl, Text.isBlank_eq_false_of_startsName hfirst, ?_⟩
  have hdot : first ≠ '.' := by
    rintro rfl
    exact absurd hfirst (by decide)
  have hquote : first ≠ quote := by
    rintro rfl
    exact absurd hfirst (by decide)
  have htake := takeWhile_of_run hothers hrest
  have hdrop := dropWhile_of_run hothers hrest
  simp [ofChar, Text.isDigit_eq_false_of_startsName hfirst, hdot, hquote, hfirst, htake, hdrop]

/-- No character of an operator begins a lexeme of another kind. -/
theorem ofChar_eq_operator {c : Char} (h : c ∈ oneCharOperators) (cs : List Char) :
    ofChar c cs = operator c cs := by
  have hothers : ∀ d ∈ oneCharOperators, Decimal.isDigit d = false ∧ d ≠ '.' ∧ d ≠ quote ∧
      Text.startsName d = false ∧ d ≠ '(' ∧ d ≠ '[' ∧ d ≠ ')' ∧ d ≠ ']' ∧ d ≠ separator :=
    forall_mem_of_all (by decide)
  rcases hothers c h with ⟨hdigit, hdot, hquote, hname, hparen, hbracket, hclose, hclose', hsep⟩
  simp [ofChar, hdigit, hdot, hquote, hname, hparen, hbracket, hclose, hclose', hsep]

theorem isBlank_eq_false_of_operator {c : Char} (h : c ∈ oneCharOperators) :
    Text.isBlank c = false := by
  have hnone : ∀ d ∈ oneCharOperators, Text.isBlank d = false := forall_mem_of_all (by decide)
  exact hnone c h

/-- An operator of one character must not make one of two with what follows it. -/
theorem heads_operator {lexeme rest : List Char} (h : Token.Kind.operator.Fits lexeme)
    (hrest : ∀ c d, lexeme = [c] → d ∈ rest.head? → (c, d) ∉ twoCharOperators) :
    Heads .operator lexeme rest := by
  rcases h with ⟨c, hc, rfl⟩ | ⟨⟨c, d⟩, hcd, rfl⟩
  · refine ⟨c, rest, rfl, isBlank_eq_false_of_operator hc, ?_⟩
    rw [ofChar_eq_operator hc]
    cases rest with
    | nil => simp [operator, hc]
    | cons d rest => simp [operator, hc, hrest c d rfl rfl]
  · have hfirsts : ∀ cd ∈ twoCharOperators, cd.1 ∈ oneCharOperators :=
      forall_mem_of_all (by decide)
    have hc := hfirsts (c, d) hcd
    refine ⟨c, d :: rest, rfl, isBlank_eq_false_of_operator hc, ?_⟩
    rw [ofChar_eq_operator hc]
    simp [operator, hcd]

theorem heads_opening (rest : List Char) : Heads .opening ['('] rest :=
  ⟨'(', rest, rfl, by decide, rfl⟩

theorem heads_closing (rest : List Char) : Heads .closing [')'] rest :=
  ⟨')', rest, rfl, by decide, rfl⟩

end Scan

namespace Cursor

/-- A lexeme at the head of the text is the next token. -/
theorem next_of_heads {kind : Token.Kind} {lexeme rest : List Char}
    (h : Scan.Heads kind lexeme rest) (position : Nat) :
    (Cursor.mk (lexeme ++ rest) position).next =
      (.ok (some ⟨kind, kind.textOf lexeme, position, lexeme.length⟩),
        ⟨rest, position + lexeme.length⟩) := by
  rcases h with ⟨first, others, heq, hfirst, hscan⟩
  rw [heq]
  have hblanks : ∀ d ∈ ([] : List Char), Text.isBlank d = true := by simp
  exact next_of_scan hblanks hfirst hscan position

/-- A blank only moves what follows it. -/
theorem next_blank_cons {blank : Char} (h : Text.isBlank blank = true) (cs : List Char)
    (position : Nat) :
    (Cursor.mk (blank :: cs) position).next = (Cursor.mk cs (position + 1)).next := by
  have hskip : (Cursor.mk (blank :: cs) position).skipBlanks =
      (Cursor.mk cs (position + 1)).skipBlanks := by
    simp [skipBlanks, h]
    omega
  simp only [next, hskip]

/-- So do many. -/
theorem next_blanks {blanks : List Char} (h : ∀ d ∈ blanks, Text.isBlank d = true) (cs : List Char)
    (position : Nat) :
    (Cursor.mk (blanks ++ cs) position).next = (Cursor.mk cs (position + blanks.length)).next := by
  induction blanks generalizing position with
  | nil => rfl
  | cons blank blanks ih =>
    have hrest := ih fun d hd => h d (List.mem_cons_of_mem blank hd)
    rw [List.cons_append, next_blank_cons (h blank List.mem_cons_self), hrest, List.length_cons,
      Nat.add_right_comm, Nat.add_assoc]

end Cursor

/-! ## Words and symbols -/

/-- What is written like a word of letters, up to case, is a name. -/
theorem fits_of_sameFolded {word written : String} (hne : word.toList ≠ [])
    (hword : word.toList.all (fun c => c.toLower.isLower) = true)
    (h : Text.sameFolded word written = true) : Token.Kind.identifier.Fits written.toList := by
  have hfold : word.toList.map Char.toLower = written.toList.map Char.toLower :=
    of_decide_eq_true h
  have hletters : ∀ c ∈ written.toList, Text.isLetter c = true := by
    intro c hc
    have hmem : c.toLower ∈ word.toList.map Char.toLower := by
      rw [hfold]
      exact List.mem_map_of_mem hc
    rcases List.mem_map.mp hmem with ⟨d, hd, heq⟩
    exact Text.isLetter_of_isLower_toLower (heq ▸ List.all_eq_true.mp hword d hd)
  cases hwritten : written.toList with
  | nil =>
    rw [hwritten] at hfold
    exact absurd (List.map_eq_nil_iff.mp hfold) hne
  | cons first others =>
    rw [hwritten] at hletters
    have hfirst : Text.startsName first = true := by
      simp [Text.startsName, hletters first (by simp)]
    refine ⟨first, others, rfl, hfirst, ?_⟩
    intro d hd
    simp [Text.continuesName, hletters d (by simp [hd])]

/-- Whatever is looked up by its spelling is in the table. -/
theorem mem_of_lookup {β : Type} {table : List (String × β)} {spelling : String} {b : β}
    (h : table.lookup spelling = some b) : (spelling, b) ∈ table := by
  rcases List.lookup_eq_some_iff.mp h with ⟨before, behind, heq, _⟩
  rw [heq]
  simp

/-- A prefix operator is spelled with one character. -/
theorem PrefixOp.char_of_ofSymbol? {symbol : String} {op : PrefixOp}
    (h : ofSymbol? symbol = some op) : ∃ c ∈ ['+', '-', '!', '~'], symbol.toList = [c] := by
  have hall : ∀ entry ∈ spellings, entry.1.toList ∈ ['+', '-', '!', '~'].map ([·]) := by decide
  rcases List.mem_map.mp (hall (symbol, op) (mem_of_lookup h)) with ⟨c, hc, heq⟩
  exact ⟨c, hc, heq.symm⟩

/-- An infix operator is spelled with the characters of operators, or as a name. -/
theorem InfixOp.fits_of_ofSymbol? {symbol : String} {op : InfixOp}
    (h : ofSymbol? symbol = some op) :
    Token.Kind.operator.Fits symbol.toList ∨ Token.Kind.identifier.Fits symbol.toList := by
  have hsymbols : ∀ entry ∈ spellings, entry.1.toList ∈ Scan.oneCharOperators.map ([·]) ∨
      entry.1.toList ∈ Scan.twoCharOperators.map fun cd => [cd.1, cd.2] := by decide
  have hkeywords : ∀ entry ∈ keywords, entry.1.toList ≠ [] ∧
      entry.1.toList.all (fun c => c.toLower.isLower) = true := by decide
  unfold ofSymbol? at h
  split at h
  · -- a symbol is spelled one way
    rename_i op' hlookup
    left
    rcases hsymbols (symbol, op') (mem_of_lookup hlookup) with hone | htwo
    · rcases List.mem_map.mp hone with ⟨c, hc, heq⟩
      exact Or.inl ⟨c, hc, heq.symm⟩
    · rcases List.mem_map.mp htwo with ⟨cd, hcd, heq⟩
      exact Or.inr ⟨cd, hcd, heq.symm⟩
  · -- a keyword in any case
    right
    rcases Option.map_eq_some_iff.mp h with ⟨keyword, hfind, _⟩
    have hmem := hkeywords keyword (List.mem_of_find?_eq_some hfind)
    have hsame : Text.sameFolded keyword.1 symbol = true := by simpa using List.find?_some hfind
    exact fits_of_sameFolded hmem.1 hmem.2 hsame

/-- A prefix operator is read back before anything but an equals sign. -/
theorem heads_prefixOp {symbol : String} {op : PrefixOp} {rest : List Char}
    (h : PrefixOp.ofSymbol? symbol = some op) (hrest : ∀ c ∈ rest.head?, c ≠ '=') :
    Scan.Heads .operator symbol.toList rest := by
  have hone : ∀ c ∈ ['+', '-', '!', '~'], c ∈ Scan.oneCharOperators :=
    forall_mem_of_all (by decide)
  have htwo : ∀ cd ∈ Scan.twoCharOperators, cd.1 ∈ ['+', '-', '!', '~'] → cd.2 = '=' :=
    forall_mem_of_all (by decide)
  rcases PrefixOp.char_of_ofSymbol? h with ⟨c, hc, heq⟩
  refine Scan.heads_operator (Or.inl ⟨c, hone c hc, heq⟩) ?_
  intro c' d hc' hd hmem
  cases heq.symm.trans hc'
  exact hrest d hd (htwo (c, d) hmem hc)

/-- An infix operator is read back before what goes on with no name and with no operator. -/
theorem heads_infix_of_head {symbol : String} {op : InfixOp} {rest : List Char}
    (h : InfixOp.ofSymbol? symbol = some op)
    (hname : ∀ c ∈ rest.head?, Text.continuesName c = false)
    (hpair : ∀ d ∈ rest.head?, ∀ c, (c, d) ∉ Scan.twoCharOperators) :
    ∃ kind, (kind = .operator ∨ kind = .identifier) ∧ Scan.Heads kind symbol.toList rest := by
  rcases InfixOp.fits_of_ofSymbol? h with hfits | hfits
  · refine ⟨.operator, Or.inl rfl, Scan.heads_operator hfits ?_⟩
    exact fun c d _ hd => hpair d hd c
  · exact ⟨.identifier, Or.inr rfl, Scan.heads_identifier hfits hname⟩

/-- It is read back before a space. -/
theorem heads_infix {symbol : String} {op : InfixOp} (h : InfixOp.ofSymbol? symbol = some op)
    (rest : List Char) :
    ∃ kind, (kind = .operator ∨ kind = .identifier) ∧
      Scan.Heads kind symbol.toList (' ' :: rest) := by
  have hnone : ∀ cd ∈ Scan.twoCharOperators, cd.2 ≠ ' ' := forall_mem_of_all (by decide)
  refine heads_infix_of_head h ?_ ?_
  · rintro _ ⟨⟩
    decide
  · rintro _ ⟨⟩ c hmem
    exact hnone _ hmem rfl

end Formula
