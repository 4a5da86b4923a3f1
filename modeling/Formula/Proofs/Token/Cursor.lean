import Formula.Proofs.Text.Classes
import Formula.Proofs.Token.Scan

/-! # Moving a cursor

A call of `next` that finds a token cuts the text in three: the blanks before the token, its lexeme,
and what the cursor then stands before. A call that faults stands before a character it can do
nothing with. `Reads` follows a cursor over any number of tokens.
-/

namespace Formula.Cursor

/-! ## One token -/

/-- From `c` on, `token` is cut from the text as `lexeme` behind `blanks`, which leaves `c'`. -/
structure Cuts (c : Cursor) (blanks lexeme : List Char) (token : Token) (c' : Cursor) : Prop where
  rest_eq : c.rest = blanks ++ (lexeme ++ c'.rest)
  blank : ∀ d ∈ blanks, Text.isBlank d = true
  lexeme_ne : lexeme ≠ []
  fits : token.kind.Fits lexeme
  text_eq : token.text = token.kind.textOf lexeme
  position_eq : token.position = c.position + blanks.length
  length_eq : token.length = lexeme.length
  behind : c'.position = token.position + token.length

/-- Every token but a string is cut from the text as it reads. -/
theorem Cuts.lexeme_eq {c c' : Cursor} {blanks lexeme : List Char} {token : Token}
    (h : c.Cuts blanks lexeme token c') (hkind : token.kind ≠ .string) :
    lexeme = token.text.toList := by
  rw [h.text_eq]
  cases hother : token.kind with
  | string => exact absurd hother hkind
  | _ => exact String.toList_ofList.symm

/-- A token that opens a group is the delimiter and nothing else. -/
theorem Cuts.eq_of_isOpening {c c' : Cursor} {blanks lexeme : List Char} {token : Token}
    {opening : Char} (h : c.Cuts blanks lexeme token c')
    (hopening : token.isOpening (String.ofList [opening]) = true) :
    lexeme = [opening] ∧ (opening = '[' ∨ opening = '(') := by
  simp only [Token.isOpening, Bool.and_eq_true, decide_eq_true_eq] at hopening
  have hlexeme : lexeme = [opening] := by
    rw [h.lexeme_eq (by simp [hopening.1]), hopening.2, String.toList_ofList]
  have hfits := h.fits
  rw [hopening.1, hlexeme] at hfits
  refine ⟨hlexeme, ?_⟩
  rcases hfits with heq | heq
  · exact .inr (List.singleton_inj.mp heq)
  · exact .inl (List.singleton_inj.mp heq)

/-- The text ahead, the blanks cut off. -/
theorem rest_eq_skipBlanks (c : Cursor) :
    c.rest = c.rest.takeWhile Text.isBlank ++ c.skipBlanks.rest :=
  List.takeWhile_append_dropWhile.symm

/-- A token that is found is cut from the text ahead. -/
theorem cuts_of_next {c c' : Cursor} {token : Token} (h : c.next = (.ok (some token), c')) :
    ∃ blanks lexeme, c.Cuts blanks lexeme token c' := by
  simp only [next] at h
  have hrest := c.rest_eq_skipBlanks
  split at h
  · cases h
  · rename_i first others hstart
    rw [hstart] at hrest
    cases hscan : (Scan.ofChar first others).outcome with
    | error fault => simp [hscan] at h
    | ok kind =>
      simp only [hscan, Prod.mk.injEq, Except.ok.injEq, Option.some.injEq] at h
      rcases h with ⟨rfl, rfl⟩
      have hfits := Scan.fits_of_ofChar hscan
      refine ⟨c.rest.takeWhile Text.isBlank, (Scan.ofChar first others).lexeme, ?_⟩
      constructor
      · rw [Scan.ofChar_append]
        exact hrest
      · exact fun d hd => List.mem_takeWhile_imp hd
      · exact Token.Kind.ne_nil_of_fits hfits
      · exact hfits
      · rfl
      · rfl
      · rfl
      · rfl

/-- Without a token there is nothing ahead but blanks. -/
theorem blank_of_next_none {c c' : Cursor} (h : c.next = (.ok none, c')) :
    ∀ d ∈ c.rest, Text.isBlank d = true := by
  simp only [next] at h
  have hrest := c.rest_eq_skipBlanks
  split at h
  · rename_i hstart
    rw [hstart, List.append_nil] at hrest
    intro d hd
    rw [hrest] at hd
    exact List.mem_takeWhile_imp hd
  · rename_i first others hstart
    cases hscan : (Scan.ofChar first others).outcome <;> simp [hscan] at h

/-- A fault is about a stretch of the text ahead that begins at a character a scan faults at. -/
theorem faultsAt_of_next {c c' : Cursor} {e : Error} (h : c.next = (.error e, c')) :
    ∃ blanks first others fault lexeme, c.rest = blanks ++ first :: others ∧
      e = .positioned fault (c.position + blanks.length) (max 1 lexeme.length) ∧
      lexeme.length ≤ others.length + 1 ∧ Scan.FaultsAt first fault lexeme := by
  simp only [next] at h
  have hrest := c.rest_eq_skipBlanks
  split at h
  · cases h
  · rename_i first others hstart
    rw [hstart] at hrest
    cases hscan : (Scan.ofChar first others).outcome with
    | ok kind => simp [hscan] at h
    | error fault =>
      simp only [hscan, Prod.mk.injEq, Except.error.injEq] at h
      have hlength := congrArg List.length (Scan.ofChar_append first others)
      simp only [List.length_append, List.length_cons] at hlength
      exact ⟨_, first, others, fault, (Scan.ofChar first others).lexeme, hrest, h.1.symm, by omega,
        Scan.faultsAt_of_ofChar hscan⟩

/-- Behind the blanks the text has ended. -/
theorem next_of_nil {c : Cursor} (hrest : c.skipBlanks.rest = []) : c.next = (.ok none, c.skipBlanks) := by
  unfold next
  simp only [hrest]

/-- A lexeme behind the blanks is the next token. -/
theorem next_of_ok {c : Cursor} {first : Char} {others lexeme rest : List Char} {kind : Token.Kind}
    (hrest : c.skipBlanks.rest = first :: others)
    (hscan : Scan.ofChar first others = ⟨.ok kind, lexeme, rest⟩) :
    c.next = (.ok (some ⟨kind, kind.textOf lexeme, c.skipBlanks.position, lexeme.length⟩),
      ⟨rest, c.skipBlanks.position + lexeme.length⟩) := by
  unfold next
  simp only [hrest, hscan]

/-- A fault behind the blanks is that of the call. -/
theorem next_of_error {c : Cursor} {first : Char} {others lexeme rest : List Char} {fault : Fault}
    (hrest : c.skipBlanks.rest = first :: others)
    (hscan : Scan.ofChar first others = ⟨.error fault, lexeme, rest⟩) :
    c.next = (.error (.positioned fault c.skipBlanks.position (max 1 lexeme.length)),
      ⟨rest, c.skipBlanks.position + lexeme.length⟩) := by
  unfold next
  simp only [hrest, hscan]

/-- What a scan finds behind blanks is the next token. -/
theorem next_of_scan {blanks others lexeme rest : List Char} {first : Char} {kind : Token.Kind}
    (hblanks : ∀ d ∈ blanks, Text.isBlank d = true) (hfirst : Text.isBlank first = false)
    (hscan : Scan.ofChar first others = ⟨.ok kind, lexeme, rest⟩) (position : Nat) :
    (Cursor.mk (blanks ++ first :: others) position).next =
      (.ok (some ⟨kind, kind.textOf lexeme, position + blanks.length, lexeme.length⟩),
        ⟨rest, position + blanks.length + lexeme.length⟩) := by
  have hdrop : (blanks ++ first :: others).dropWhile Text.isBlank = first :: others := by
    rw [List.dropWhile_append_of_pos hblanks, List.dropWhile_cons_of_neg (by simp [hfirst])]
  have htake : (blanks ++ first :: others).takeWhile Text.isBlank = blanks := by
    rw [List.takeWhile_append_of_pos hblanks, List.takeWhile_cons_of_neg (by simp [hfirst]),
      List.append_nil]
  simp [next, skipBlanks, hdrop, htake, hscan]

/-- Nothing but blanks ahead is no token. -/
theorem next_of_blank {rest : List Char} (hblank : ∀ d ∈ rest, Text.isBlank d = true)
    (position : Nat) :
    (Cursor.mk rest position).next = (.ok none, ⟨[], position + rest.length⟩) := by
  have hdrop : rest.dropWhile Text.isBlank = [] := List.dropWhile_eq_nil_iff.mpr hblank
  have htake : rest.takeWhile Text.isBlank = rest := List.takeWhile_eq_self_iff.mpr hblank
  simp [next, skipBlanks, hdrop, htake]

/-- A call that finds the end has passed over all there was. -/
theorem eq_of_next_none {c c' : Cursor} (h : c.next = (.ok none, c')) :
    c' = ⟨[], c.position + c.rest.length⟩ :=
  congrArg Prod.snd (h.symm.trans (next_of_blank (blank_of_next_none h) c.position))

/-- A call that does not fault passes over what it has read: a token at least, if it finds one. -/
theorem passes_of_next {c c' : Cursor} {ahead : Option Token} (h : c.next = (.ok ahead, c')) :
    ∃ piece, c.rest = piece ++ c'.rest ∧ c'.position = c.position + piece.length ∧
      (ahead ≠ none → piece ≠ []) := by
  cases ahead with
  | none =>
    have hend := eq_of_next_none h
    exact ⟨c.rest, by rw [hend, List.append_nil], by rw [hend], fun hne => absurd rfl hne⟩
  | some token =>
    obtain ⟨blanks, lexeme, hcuts⟩ := cuts_of_next h
    refine ⟨blanks ++ lexeme, ?_, ?_, ?_⟩
    · rw [hcuts.rest_eq, List.append_assoc]
    · rw [hcuts.behind, hcuts.position_eq, hcuts.length_eq, List.length_append, Nat.add_assoc]
    · intro _ hnil
      exact hcuts.lexeme_ne (List.append_eq_nil_iff.mp hnil).2

/-! ## Raw groups -/

section Groups

variable {opening : Char} {t : Nesting} {cs inside rest : List Char}

/-- The raw text of a group ends before a character. -/
theorem untilClosed_append
    (h : untilClosed opening t cs = some (inside, rest)) :
    ∃ closing, cs = inside ++ closing :: rest := by
  induction cs generalizing t inside with
  | nil => cases h
  | cons c cs ih =>
    simp only [untilClosed] at h
    split at h
    · cases h
      exact ⟨c, rfl⟩
    · rcases Option.map_eq_some_iff.mp h with ⟨⟨inside', rest'⟩, hrest, heq⟩
      cases heq
      rcases ih hrest with ⟨closing, hcs⟩
      exact ⟨closing, by rw [hcs]; rfl⟩

/-- What follows the end of a group does not matter. -/
theorem untilClosed_append_of_some
    (h : untilClosed opening t cs = some (inside, rest)) (tail : List Char) :
    untilClosed opening t (cs ++ tail) = some (inside, rest ++ tail) := by
  induction cs generalizing t inside with
  | nil => cases h
  | cons c cs ih =>
    simp only [untilClosed, List.cons_append] at h ⊢
    split at h
    · rename_i hclosed
      cases h
      rw [if_pos hclosed]
    · rename_i hopen
      obtain ⟨⟨inside', rest'⟩, hrest, heq⟩ := Option.map_eq_some_iff.mp h
      cases heq
      rw [if_neg hopen, ih hrest]
      rfl

/-- What is captured, and where the cursor then stands. -/
theorem untilClosed_of_takeGroup {c c' : Cursor} {text : String} {offset openedAt : Nat}
    (h : c.takeGroup opening openedAt = (.ok (text, offset), c')) :
    untilClosed opening .top c.rest = some (text.toList, c'.rest) ∧ offset = c.position ∧
      c'.position = c.position + text.toList.length + 1 := by
  unfold takeGroup at h
  split at h
  · rename_i inside rest hclosed
    cases h
    rw [String.toList_ofList]
    exact ⟨hclosed, rfl, rfl⟩
  · cases h

theorem takeGroup_of_untilClosed {c : Cursor}
    (h : untilClosed opening .top c.rest = some (inside, rest)) (openedAt : Nat) :
    c.takeGroup opening openedAt =
      (.ok (String.ofList inside, c.position), ⟨rest, c.position + inside.length + 1⟩) := by
  unfold takeGroup
  rw [h]

end Groups

/-! ## Many tokens -/

/-- Calls of `next` find `tokens` one after another and lead from `c` to `c'`. -/
inductive Reads : Cursor → List Token → Cursor → Prop where
  | nil {c : Cursor} : Reads c [] c
  | cons {c c' c'' : Cursor} {token : Token} {tokens : List Token}
      (h : c.next = (.ok (some token), c')) (hrest : Reads c' tokens c'') :
      Reads c (token :: tokens) c''

theorem reads_one {c c' : Cursor} {token : Token} (h : c.next = (.ok (some token), c')) :
    Reads c [token] c' :=
  .cons h .nil

theorem Reads.append {c c' c'' : Cursor} {front back : List Token} (hfront : Reads c front c')
    (hback : Reads c' back c'') : Reads c (front ++ back) c'' := by
  induction hfront with
  | nil => exact hback
  | cons h _ ih => exact .cons h (ih hback)

theorem Reads.of_append {c c'' : Cursor} {front back : List Token}
    (h : Reads c (front ++ back) c'') : ∃ c', Reads c front c' ∧ Reads c' back c'' := by
  induction front generalizing c with
  | nil => exact ⟨c, .nil, h⟩
  | cons token front ih =>
    cases h with
    | cons h hrest =>
      rcases ih hrest with ⟨c', hfront, hback⟩
      exact ⟨c', .cons h hfront, hback⟩

/-- What has been read is cut from the text ahead. -/
theorem Reads.suffix {c c' : Cursor} {tokens : List Token} (h : Reads c tokens c') :
    c'.rest <:+ c.rest := by
  induction h with
  | nil => exact List.suffix_rfl
  | cons h _ ih =>
    rcases cuts_of_next h with ⟨blanks, lexeme, hcuts⟩
    refine ih.trans ⟨blanks ++ lexeme, ?_⟩
    rw [hcuts.rest_eq, List.append_assoc]

/-- What has been read lies behind. -/
theorem Reads.position_add {c c' : Cursor} {tokens : List Token} (h : Reads c tokens c') :
    c'.position + c'.rest.length = c.position + c.rest.length := by
  induction h with
  | nil => rfl
  | cons h _ ih =>
    rcases cuts_of_next h with ⟨blanks, lexeme, hcuts⟩
    have hposition := hcuts.position_eq
    have hlength := hcuts.length_eq
    have hbehind := hcuts.behind
    rw [ih, hcuts.rest_eq]
    simp only [List.length_append]
    omega

/-- Every token takes a character at least, of those that have been read. -/
theorem Reads.within {c c' : Cursor} {tokens : List Token} (h : Reads c tokens c') :
    c.position ≤ c'.position ∧ ∀ token ∈ tokens, c.position ≤ token.position ∧ 0 < token.length ∧
      token.position + token.length ≤ c'.position := by
  induction h with
  | nil => exact ⟨Nat.le_refl _, fun token hmem => by cases hmem⟩
  | cons h _ ih =>
    rcases cuts_of_next h with ⟨blanks, lexeme, hcuts⟩
    have hlexeme := List.length_pos_iff.mpr hcuts.lexeme_ne
    have hposition := hcuts.position_eq
    have hlength := hcuts.length_eq
    have hbehind := hcuts.behind
    refine ⟨by omega, ?_⟩
    intro token hmem
    rcases List.mem_cons.mp hmem with rfl | hmem
    · omega
    · have hlater := ih.2 token hmem
      omega

/-- There are no more tokens than characters. -/
theorem Reads.length_le {c c' : Cursor} {tokens : List Token} (h : Reads c tokens c') :
    tokens.length ≤ c.rest.length := by
  induction h with
  | nil => exact Nat.zero_le _
  | cons h _ ih =>
    have hone := (reads_one h).within.2 _ List.mem_cons_self
    have hmoved := (reads_one h).position_add
    simp only [List.length_cons]
    omega

/-- What is read up to the end of a text are its tokens. -/
theorem Reads.tokens_of_end {c c' c'' : Cursor} {found : List Token} (h : Reads c found c')
    (hend : c'.next = (.ok none, c'')) : c.tokens = (found, .ok (), c'') := by
  -- one step for each token and one to find that there is no other
  have hwithin : ∀ steps, found.length < steps → tokensWithin steps c = (found, .ok (), c'') := by
    induction h with
    | nil =>
      intro steps hsteps
      cases steps with
      | zero => cases hsteps
      | succ steps => simp only [tokensWithin, hend]
    | cons hnext _ ih =>
      intro steps hsteps
      cases steps with
      | zero => cases hsteps
      | succ steps =>
        have hrest := ih hend steps (Nat.lt_of_succ_lt_succ hsteps)
        simp only [tokensWithin, hnext, hrest]
  exact hwithin _ (Nat.lt_succ_of_le h.length_le)

theorem Reads.tokens_eq {c c' c'' : Cursor} {found : List Token} (h : Reads c found c')
    (hend : c'.next = (.ok none, c'')) : c.tokens.1 = found :=
  congrArg Prod.fst (h.tokens_of_end hend)

/-- The tokens of a text without a fault are read up to its end. -/
theorem reads_of_tokens {c c'' : Cursor} {tokens : List Token}
    (h : c.tokens = (tokens, .ok (), c'')) :
    ∃ c', Reads c tokens c' ∧ c'.next = (.ok none, c'') := by
  have hwithin : ∀ steps (c : Cursor) (tokens : List Token), c.rest.length < steps →
      tokensWithin steps c = (tokens, .ok (), c'') →
        ∃ c', Reads c tokens c' ∧ c'.next = (.ok none, c'') := by
    intro steps
    induction steps with
    | zero =>
      intro c tokens hsteps
      cases hsteps
    | succ steps ih =>
      intro c tokens hsteps hrun
      simp only [tokensWithin] at hrun
      split at hrun
      · -- a token, and the tokens behind it
        rename_i token c₁ hnext
        have hone := (reads_one hnext).within.2 _ List.mem_cons_self
        have hmoved := (reads_one hnext).position_add
        rcases hrest : tokensWithin steps c₁ with ⟨later, ending⟩
        rw [hrest] at hrun
        cases hrun
        obtain ⟨c', hreads, hend⟩ := ih c₁ later (by omega) hrest
        exact ⟨c', .cons hnext hreads, hend⟩
      · rename_i c₁ hnext
        cases hrun
        exact ⟨c, .nil, hnext⟩
      · cases hrun
  exact hwithin _ c tokens (Nat.lt_succ_self _) h

theorem reads_of_ending {c : Cursor} (h : c.tokens.2.1 = .ok ()) :
    ∃ c', Reads c c.tokens.1 c' ∧ c'.next = (.ok none, c.tokens.2.2) := by
  refine reads_of_tokens ?_
  rw [← h]

end Formula.Cursor
