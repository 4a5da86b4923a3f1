import Formula.Proofs.Token.Lexeme

/-! # The front of a text

A delimiter ends every lexeme but a string. So what is read up to a place before a delimiter does not
depend on the delimiter or on what follows it: read as a text of its own, the front of a text has the
same tokens.
-/

namespace Formula

namespace Scan

/-! ## Scans -/

/-- No lexeme but a string goes on with the character. -/
def Ends (c : Char) : Prop :=
  ¬ IsNumeric c ∧ Text.continuesName c = false ∧ ∀ d, (d, c) ∉ twoCharOperators

theorem ends_of_delimiter {c : Char} (h : c ∈ ['(', ')', '[', ']', separator]) : Ends c := by
  have hclasses : ∀ c ∈ ['(', ')', '[', ']', separator], Decimal.isDigit c = false ∧
      c ∉ ['.', 'e', 'E', '+', '-'] ∧ Text.continuesName c = false ∧
      ∀ cd ∈ twoCharOperators, cd.2 ≠ c := forall_mem_of_all (by decide)
  obtain ⟨hdigit, hmark, hname, hoperator⟩ := hclasses c h
  refine ⟨?_, hname, fun d hmem => hoperator (d, c) hmem rfl⟩
  rintro (hnumeric | hnumeric)
  · rw [hdigit] at hnumeric
    cases hnumeric
  · exact hmark hnumeric

theorem ends_of_blank {c : Char} (h : Text.isBlank c = true) : Ends c := by
  have hmarks : ∀ c ∈ ['.', 'e', 'E', '+', '-'], Text.isBlank c = false :=
    forall_mem_of_all (by decide)
  have hpairs : ∀ cd ∈ twoCharOperators, Text.isBlank cd.2 = false := forall_mem_of_all (by decide)
  refine ⟨?_, Text.continuesName_eq_false_of_isBlank h, ?_⟩
  · rintro (hdigit | hmark)
    · cases h.symm.trans (Text.isBlank_eq_false_of_isDigit hdigit)
    · cases h.symm.trans (hmarks c hmark)
  · intro d hmem
    cases h.symm.trans (hpairs (d, c) hmem)

variable {tail : List Char} (htail : ∀ c ∈ tail.head?, Ends c)

include htail

theorem digitAhead_append (cs : List Char) : digitAhead (cs ++ tail) = digitAhead cs := by
  cases cs with
  | cons c cs => rfl
  | nil =>
    cases tail with
    | nil => rfl
    | cons c tail => exact isDigit_eq_false_of_not_isNumeric (htail c rfl).1

theorem operator_append_of_ends (c : Char) (cs : List Char) :
    operator c (cs ++ tail) =
      ⟨(operator c cs).outcome, (operator c cs).lexeme, (operator c cs).rest ++ tail⟩ := by
  cases cs with
  | nil =>
    cases tail with
    | nil => simp
    | cons d tail =>
      have hpair : (c, d) ∉ twoCharOperators := (htail d rfl).2.2 c
      by_cases hone : c ∈ oneCharOperators
      · simp [operator, hpair, hone]
      · simp [operator, hpair, hone]
  | cons d cs =>
    by_cases hpair : (c, d) ∈ twoCharOperators
    · simp [operator, hpair]
    by_cases hone : c ∈ oneCharOperators
    · simp [operator, hpair, hone]
    · simp [operator, hpair, hone]

omit htail in
theorem string_append_of_mem {cs : List Char} (h : quote ∈ cs) (tail : List Char) :
    string (cs ++ tail) =
      ⟨(string cs).outcome, (string cs).lexeme, (string cs).rest ++ tail⟩ := by
  obtain ⟨inside, rest, rfl, hinside⟩ := List.eq_append_cons_of_mem h
  rw [List.append_assoc, List.cons_append, string_append_quote hinside,
    string_append_quote hinside]

/-- What follows a lexeme does not matter, if it begins with something that ends lexemes. A string
must be closed before. -/
theorem ofChar_append_of_ends {c : Char} {cs : List Char} (hstring : c = quote → quote ∈ cs) :
    ofChar c (cs ++ tail) =
      ⟨(ofChar c cs).outcome, (ofChar c cs).lexeme, (ofChar c cs).rest ++ tail⟩ := by
  have hnumeric : ∀ d ∈ tail.head?, ¬ IsNumeric d := fun d hd => (htail d hd).1
  have hname : ∀ d ∈ tail.head?, Text.continuesName d = false := fun d hd => (htail d hd).2.1
  unfold ofChar
  rw [digitAhead_append htail]
  split
  · exact number_append_of_head hnumeric (c :: cs)
  split
  · exact string_append_of_mem (hstring ‹_›) tail
  split
  · rw [takeWhile_append_of_head hname, dropWhile_append_of_head hname]
  split
  · rfl
  split
  · rfl
  split
  · rfl
  · exact operator_append_of_ends htail c cs

end Scan

/-! ## Tokens -/

/-- The token as a text finds it that begins `start` characters later. -/
def Token.back (start : Nat) (token : Token) : Token :=
  { token with position := token.position - start }

namespace Cursor

variable {c c' : Cursor} {token : Token} {tokens : List Token} {cs more tail : List Char}
  {start : Nat}

/-- A token that is found is what a scan finds behind the blanks. -/
theorem scan_of_next (h : c.next = (.ok (some token), c')) :
    ∃ blanks first others lexeme, c.rest = blanks ++ first :: others ∧
      (∀ d ∈ blanks, Text.isBlank d = true) ∧ Text.isBlank first = false ∧
      Scan.ofChar first others = ⟨.ok token.kind, lexeme, c'.rest⟩ ∧
      token = ⟨token.kind, token.kind.textOf lexeme, c.position + blanks.length, lexeme.length⟩ ∧
      c'.position = c.position + blanks.length + lexeme.length := by
  simp only [next] at h
  have hrest := c.rest_eq_skipBlanks
  split at h
  · cases h
  · rename_i first others hstart
    rw [hstart] at hrest
    have hfirst : Text.isBlank first = false := by
      have hhead := List.head?_dropWhile_not Text.isBlank c.rest
      have hdrop : c.rest.dropWhile Text.isBlank = first :: others := hstart
      rw [hdrop] at hhead
      exact hhead
    rcases hscan : Scan.ofChar first others with ⟨outcome, lexeme, rest⟩
    rw [hscan] at h
    cases outcome with
    | error fault => simp at h
    | ok kind =>
      simp only [Prod.mk.injEq, Except.ok.injEq, Option.some.injEq] at h
      rcases h with ⟨rfl, rfl⟩
      exact ⟨_, first, others, lexeme, hrest, fun d hd => List.mem_takeWhile_imp hd, hfirst, hscan,
        rfl, rfl⟩

/-- A string that is found ends with a quote. -/
theorem quote_mem_of_string {others lexeme rest : List Char} {kind : Token.Kind}
    (h : Scan.string others = ⟨.ok kind, quote :: lexeme, rest⟩) : quote ∈ lexeme := by
  unfold Scan.string at h
  split at h
  · cases h
  · simp only [Scan.mk.injEq, List.cons_append, List.cons.injEq, true_and] at h
    rw [← h.2.1]
    simp

/-- A scan that finds a string has seen the quote that closes it. -/
theorem quote_mem_of_scan {others lexeme rest : List Char} {kind : Token.Kind}
    (h : Scan.ofChar quote others = ⟨.ok kind, lexeme, rest⟩) : quote ∈ others := by
  by_contra hnot
  have hdrop : others.dropWhile (· ≠ quote) = [] :=
    List.dropWhile_eq_nil_iff.mpr fun d hd => decide_eq_true fun heq => hnot (heq ▸ hd)
  have hstring : Scan.ofChar quote others = Scan.string others := rfl
  rw [hstring, Scan.string, hdrop] at h
  cases h

/-- A token that is found is found before any tail that begins with something that ends lexemes, and
wherever the text stands. -/
theorem next_append (h : c.next = (.ok (some token), c')) (htail : ∀ d ∈ tail.head?, Scan.Ends d)
    (distance : Nat) :
    (Cursor.mk (c.rest ++ tail) (c.position + distance)).next =
      (.ok (some { token with position := token.position + distance }),
        ⟨c'.rest ++ tail, c'.position + distance⟩) := by
  obtain ⟨blanks, first, others, lexeme, hrest, hblanks, hfirst, hscan, htoken, hposition⟩ :=
    scan_of_next h
  have hstring : first = quote → quote ∈ others := by
    rintro rfl
    exact quote_mem_of_scan hscan
  have hwhole := Scan.ofChar_append_of_ends htail hstring
  rw [hscan] at hwhole
  have hbegin : c.position + distance + blanks.length = token.position + distance := by
    have hat : token.position = c.position + blanks.length := congrArg Token.position htoken
    omega
  have hend : c.position + distance + blanks.length + lexeme.length = c'.position + distance := by
    omega
  have hmoved : { token with position := token.position + distance } =
      (⟨token.kind, token.kind.textOf lexeme, token.position + distance, lexeme.length⟩ : Token) := by
    rw [htoken]
  rw [hrest, List.append_assoc, List.cons_append, next_of_scan hblanks hfirst hwhole, hend, hbegin,
    hmoved]

/-- A token that ends in the front of a text is a token of the front. -/
theorem next_front (h : c.next = (.ok (some token), c')) (hrest : c.rest = cs ++ tail)
    (hrest' : c'.rest = more ++ tail) (htail : ∀ d ∈ tail.head?, Scan.Ends d)
    (hstart : start ≤ c.position) :
    (Cursor.mk cs (c.position - start)).next =
      (.ok (some (token.back start)), ⟨more, c'.position - start⟩) := by
  obtain ⟨blanks, first, others, lexeme, hwhole, hblanks, hfirst, hscan, htoken, hposition⟩ :=
    scan_of_next h
  have hlexeme : lexeme ++ c'.rest = first :: others := by
    have happend := Scan.ofChar_append first others
    rw [hscan] at happend
    exact happend
  have hfits : token.kind.Fits lexeme := by
    have hall := Scan.fits_of_ofChar (congrArg Scan.outcome hscan)
    rw [hscan] at hall
    exact hall
  -- the lexeme begins with `first` and ends in the front
  obtain ⟨inside, rfl⟩ : ∃ inside, lexeme = first :: inside := by
    cases lexeme with
    | nil => exact absurd rfl (Token.Kind.ne_nil_of_fits hfits)
    | cons d inside =>
      rw [List.cons_append, List.cons.injEq] at hlexeme
      exact ⟨inside, by rw [hlexeme.1]⟩
  have hothers : others = (inside ++ more) ++ tail := by
    rw [List.cons_append, List.cons.injEq] at hlexeme
    rw [← hlexeme.2, hrest', List.append_assoc]
  have hcs : cs = blanks ++ first :: (inside ++ more) := by
    rw [hrest, hothers] at hwhole
    have hall : cs ++ tail = (blanks ++ first :: (inside ++ more)) ++ tail := by
      simp only [hwhole, List.append_assoc, List.cons_append]
    exact List.append_cancel_right hall
  have hstring : first = quote → quote ∈ inside ++ more := by
    rintro rfl
    exact List.mem_append_left more (quote_mem_of_string hscan)
  -- without the tail, the scan finds the same
  have hfront : Scan.ofChar first (inside ++ more) = ⟨.ok token.kind, first :: inside, more⟩ := by
    rw [hothers, Scan.ofChar_append_of_ends htail hstring, hrest'] at hscan
    rcases hscan' : Scan.ofChar first (inside ++ more) with ⟨outcome, lexeme, rest⟩
    rw [hscan'] at hscan
    simp only [Scan.mk.injEq] at hscan
    obtain ⟨rfl, rfl, hbehind⟩ := hscan
    rw [List.append_cancel_right hbehind]
  have hat : token.position = c.position + blanks.length := congrArg Token.position htoken
  have hbegin : c.position - start + blanks.length = token.position - start := by omega
  have hend : c.position - start + blanks.length + (first :: inside).length =
      c'.position - start := by omega
  have hback : token.back start =
      ⟨token.kind, token.kind.textOf (first :: inside), token.position - start,
        (first :: inside).length⟩ := by
    rw [Token.back, htoken]
  rw [hcs, next_of_scan hblanks hfirst hfront, hend, hbegin, hback]

/-- What is read up to a place before something that ends lexemes is read of the front alone. -/
theorem Reads.front (h : c.Reads tokens c') (hrest : c.rest = cs ++ tail)
    (hrest' : c'.rest = more ++ tail) (htail : ∀ d ∈ tail.head?, Scan.Ends d)
    (hstart : start ≤ c.position) :
    (Cursor.mk cs (c.position - start)).Reads (tokens.map (·.back start))
      ⟨more, c'.position - start⟩ := by
  induction h generalizing cs with
  | nil =>
    obtain rfl := List.append_cancel_right (hrest.symm.trans hrest')
    exact .nil
  | @cons c c₁ _ token tokens hnext hreads ih =>
    -- behind the first token there is still a front
    obtain ⟨between, hbetween⟩ := hreads.suffix
    have hmiddle : c₁.rest = (between ++ more) ++ tail := by
      rw [List.append_assoc, ← hrest', hbetween]
    have hmoved := (reads_one hnext).within.1
    exact .cons (next_front hnext hrest hmiddle htail hstart)
      (ih hmiddle hrest' (Nat.le_trans hstart hmoved))

end Cursor

end Formula
