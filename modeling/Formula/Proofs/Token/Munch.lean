import Formula.Proofs.Decimal.Grammar

/-! # Numbers are munched whole

A number is as long as its grammar lets it be: the scan takes the longest mantissa, then the longest
exponent. A mark behind the mantissa with no digits to its exponent is a fault, and the only one a
number can have, since whatever is taken whole is a decimal and can be read.
-/

namespace Formula

/-- A beginning of the text with the property, of which all such beginnings are beginnings. -/
structure Longest (P : List Char → Prop) (piece text : List Char) : Prop where
  holds : P piece
  begins : piece <+: text
  longest : ∀ other, P other → other <+: text → other <+: piece

namespace Longest

variable {P : List Char → Prop} {piece piece' text : List Char} {c : Char} {more : List Char}

theorem unique (h : Longest P piece text) (h' : Longest P piece' text) : piece = piece' := by
  have hfront := h'.longest piece h.holds h.begins
  have hback := h.longest piece' h'.holds h'.begins
  exact hfront.eq_of_length (Nat.le_antisymm hfront.length_le hback.length_le)

/-- A beginning with the property is the longest if it goes on with a character that no longer one
goes on with. -/
theorem eq_of_append_cons (h : Longest P piece text) {other : List Char} (hother : P other)
    (hbegins : other ++ c :: more <+: text) (hends : ∀ rest, ¬ P (other ++ c :: rest)) :
    other = piece := by
  obtain ⟨tail, rfl⟩ := h.longest other hother ((List.prefix_append _ _).trans hbegins)
  cases tail with
  | nil => exact (List.append_nil other).symm
  | cons d tail =>
    -- both go on with the next character of the text
    obtain ⟨rest, rfl⟩ := h.begins
    rw [List.append_assoc, List.prefix_append_right_inj, List.cons_append,
      List.cons_prefix_cons] at hbegins
    rw [← hbegins.1] at h
    exact absurd h.holds (hends tail)

end Longest

/-- A run is the longest of its class. -/
theorem longest_takeWhile (p : Char → Bool) (text : List Char) :
    Longest (fun cs => ∀ c ∈ cs, p c = true) (text.takeWhile p) text where
  holds := fun _ hc => List.mem_takeWhile_imp hc
  begins := List.takeWhile_prefix p
  longest := by
    rintro other hall ⟨rest, rfl⟩
    rw [List.takeWhile_append_of_pos hall]
    exact List.prefix_append ..

namespace Scan

open Decimal

variable {cs front behind back rest : List Char}

/-! ## The mantissa -/

/-- The digits before a point. -/
theorem span_of_point {whole behind : List Char} (h : IsDigits whole)
    (hcs : cs = whole ++ '.' :: behind) :
    cs.takeWhile isDigit = whole ∧ cs.dropWhile isDigit = '.' :: behind := by
  have hstop : ∀ c ∈ ('.' :: behind).head?, isDigit c = false := by
    rintro _ ⟨⟩
    rfl
  rw [hcs]
  exact ⟨takeWhile_of_run h hstop, dropWhile_of_run h hstop⟩

theorem longest_mantissa (cs : List Char) : Longest IsMantissa (mantissa cs).1 cs := by
  have hrun := longest_takeWhile isDigit cs
  by_cases hpoint : ∃ behind, cs.dropWhile isDigit = '.' :: behind
  · obtain ⟨behind, hbehind⟩ := hpoint
    have hfraction := longest_takeWhile isDigit behind
    have hbegins : (mantissa cs).1 <+: cs := ⟨(mantissa cs).2, mantissa_append cs⟩
    rw [mantissa_of_point hbehind] at hbegins ⊢
    refine ⟨.point hrun.holds hfraction.holds, hbegins, ?_⟩
    rintro other hother hprefix
    cases hother with
    | whole h => exact (hrun.longest other h hprefix).trans (List.prefix_append ..)
    | @point whole fraction h hfraction' =>
      obtain ⟨tail, hcs⟩ := hprefix
      rw [List.append_assoc, List.cons_append] at hcs
      obtain ⟨htake, hdrop⟩ := span_of_point h hcs.symm
      cases hdrop.symm.trans hbehind
      rw [htake, List.prefix_append_right_inj, List.cons_prefix_cons]
      exact ⟨rfl, hfraction.longest fraction hfraction' (List.prefix_append ..)⟩
  · have hnot : ∀ c ∈ (cs.dropWhile isDigit).head?, c ∉ ['.'] := by
      intro c hc hmem
      rw [List.mem_singleton.mp hmem] at hc
      exact hpoint (List.head?_eq_some_iff.mp hc)
    rw [mantissa_of_not_point hnot]
    refine ⟨.whole hrun.holds, hrun.begins, ?_⟩
    rintro other hother hprefix
    cases hother with
    | whole h => exact hrun.longest other h hprefix
    | @point whole fraction h _ =>
      obtain ⟨tail, hcs⟩ := hprefix
      rw [List.append_assoc, List.cons_append] at hcs
      exact absurd ⟨_, (span_of_point h hcs.symm).2⟩ hpoint

/-- What a number begins with is in its mantissa, which has a digit therefore. -/
theorem isSignificand_of_longest (h : BeginsNumber cs) (hfront : Longest IsMantissa front cs) :
    IsSignificand front := by
  obtain ⟨digit, rest, hdigit, hcs⟩ := h
  have hone : IsDigits [digit] := by simpa [IsDigits] using hdigit
  obtain ⟨start, hstart, hmem, hbegins⟩ :
      ∃ start, IsMantissa start ∧ digit ∈ start ∧ start <+: cs := by
    rcases hcs with rfl | rfl
    · exact ⟨[digit], .whole hone, by simp, ⟨rest, rfl⟩⟩
    · exact ⟨['.', digit], @IsMantissa.point [] [digit] (fun _ => nofun) hone, by simp, ⟨rest, rfl⟩⟩
  have hwithin := hfront.longest start hstart hbegins
  exact hfront.holds.isSignificand (hwithin.mem hmem) hdigit

/-! ## The exponent -/

/-- The text begins with the mark of an exponent. -/
def BeginsExponent (cs : List Char) : Prop :=
  ∃ mark ∈ cs.head?, IsMark mark

theorem exponent_of_not_begins (h : ¬ BeginsExponent cs) : exponent cs = ([], true, cs) := by
  cases cs with
  | nil => rfl
  | cons mark cs =>
    have hmark : ¬ (mark = 'e' ∨ mark = 'E') := fun hmark => h ⟨mark, rfl, hmark⟩
    simp only [exponent, if_neg hmark]

theorem longest_onset_signed {mark sign : Char} (hmark : IsMark mark) (hsign : sign ∈ ['+', '-'])
    (rest : List Char) : Longest IsOnset [mark, sign] (mark :: sign :: rest) where
  holds := .signed hmark hsign
  begins := ⟨rest, rfl⟩
  longest := by
    intro other hother hbegins
    cases hother with
    | bare _ =>
      obtain ⟨rfl, -⟩ := List.cons_prefix_cons.mp hbegins
      exact List.cons_prefix_cons.mpr ⟨rfl, List.nil_prefix⟩
    | signed _ _ =>
      obtain ⟨rfl, hbehind⟩ := List.cons_prefix_cons.mp hbegins
      obtain ⟨rfl, -⟩ := List.cons_prefix_cons.mp hbehind
      exact List.prefix_rfl

theorem longest_onset_bare {mark : Char} (hmark : IsMark mark)
    (hnot : ∀ c ∈ behind.head?, c ∉ ['+', '-']) : Longest IsOnset [mark] (mark :: behind) where
  holds := .bare hmark
  begins := ⟨behind, rfl⟩
  longest := by
    intro other hother hbegins
    cases hother with
    | bare _ =>
      obtain ⟨rfl, -⟩ := List.cons_prefix_cons.mp hbegins
      exact List.cons_prefix_cons.mpr ⟨rfl, List.nil_prefix⟩
    | @signed _ sign _ hsign =>
      obtain ⟨tail, htail⟩ := hbegins
      cases htail
      exact absurd hsign (hnot sign rfl)

/-- Behind the mark and the sign, if there is one, the scan takes all the digits. -/
theorem exists_onset (h : BeginsExponent cs) :
    ∃ onset behind, cs = onset ++ behind ∧ Longest IsOnset onset cs ∧
      exponent cs = (onset ++ behind.takeWhile isDigit, !(behind.takeWhile isDigit).isEmpty,
        behind.dropWhile isDigit) := by
  obtain ⟨mark, hmem, hmark⟩ := h
  obtain ⟨behind, rfl⟩ := List.head?_eq_some_iff.mp hmem
  by_cases hsigned : ∃ sign rest, behind = sign :: rest ∧ sign ∈ ['+', '-']
  · obtain ⟨sign, rest, rfl, hsign⟩ := hsigned
    exact ⟨[mark, sign], rest, rfl, longest_onset_signed hmark hsign rest,
      exponent_of_sign hmark hsign rest⟩
  · have hnot : ∀ c ∈ behind.head?, c ∉ ['+', '-'] := by
      intro c hc hsign
      obtain ⟨rest, hrest⟩ := List.head?_eq_some_iff.mp hc
      exact hsigned ⟨c, rest, hrest, hsign⟩
    exact ⟨[mark], behind, rfl, longest_onset_bare hmark hnot, exponent_of_not_sign hmark hnot⟩

/-- An exponent that begins the text has its onset and some of the digits behind it. -/
theorem eq_append_of_isExponent {onset : List Char} (h : Longest IsOnset onset cs)
    (hcs : cs = onset ++ behind) (hback : IsExponent back) (hbegins : back <+: cs) :
    ∃ digits, digits ≠ [] ∧ digits <+: behind.takeWhile isDigit ∧ back = onset ++ digits := by
  cases hback with
  | @intro onset' digits honset hdigits hne =>
    obtain ⟨digit, more, rfl⟩ := List.exists_cons_of_ne_nil hne
    have hends : ∀ rest, ¬ IsOnset (onset' ++ digit :: rest) := by
      intro rest hlonger
      have hsign := isDigit_eq_false_of_sign (honset.sign_of_append hlonger)
      cases hsign.symm.trans (hdigits digit List.mem_cons_self)
    obtain rfl := h.eq_of_append_cons honset hbegins hends
    rw [hcs, List.prefix_append_right_inj] at hbegins
    exact ⟨digit :: more, hne, (longest_takeWhile isDigit behind).longest _ hdigits hbegins, rfl⟩

/-- If the text begins with an exponent, the scan takes the longest one. -/
theorem exponent_of_exists (h : ∃ back, IsExponent back ∧ back <+: cs) :
    ∃ back rest, cs = back ++ rest ∧ Longest IsExponent back cs ∧
      exponent cs = (back, true, rest) := by
  obtain ⟨back, hback, hbegins⟩ := h
  have hmark : BeginsExponent cs := by
    obtain ⟨mark, behind, hmark, rfl⟩ := hback.exists_cons
    obtain ⟨tail, rfl⟩ := hbegins
    exact ⟨mark, rfl, hmark⟩
  obtain ⟨onset, behind, hcs, honset, hexponent⟩ := exists_onset hmark
  obtain ⟨digits, hne, hdigits, -⟩ := eq_append_of_isExponent honset hcs hback hbegins
  have htaken : behind.takeWhile isDigit ≠ [] := by
    intro hnil
    rw [hnil, List.prefix_nil] at hdigits
    exact hne hdigits
  have hrest : cs = (onset ++ behind.takeWhile isDigit) ++ behind.dropWhile isDigit := by
    rw [List.append_assoc, List.takeWhile_append_dropWhile, ← hcs]
  refine ⟨_, _, hrest, ⟨.intro honset.holds (longest_takeWhile isDigit behind).holds htaken,
    ⟨_, hrest.symm⟩, ?_⟩, ?_⟩
  · intro other hother hprefix
    obtain ⟨digits', -, hdigits', rfl⟩ := eq_append_of_isExponent honset hcs hother hprefix
    rwa [List.prefix_append_right_inj]
  · rw [hexponent]
    simp [htaken]

theorem exponent_eq_of_longest (hback : Longest IsExponent back cs) (hcs : cs = back ++ rest) :
    exponent cs = (back, true, rest) := by
  obtain ⟨back', rest', hcs', hback', hexponent⟩ :=
    exponent_of_exists ⟨back, hback.holds, hback.begins⟩
  obtain rfl := hback'.unique hback
  rw [hexponent, List.append_cancel_left (hcs'.symm.trans hcs)]

/-- If it begins like one and is none, the scan stops behind the mark and the sign. -/
theorem exponent_of_not_exists (hmark : BeginsExponent cs)
    (hnone : ¬ ∃ back, IsExponent back ∧ back <+: cs) :
    ∃ onset rest, cs = onset ++ rest ∧ Longest IsOnset onset cs ∧
      exponent cs = (onset, false, rest) := by
  obtain ⟨onset, behind, hcs, honset, hexponent⟩ := exists_onset hmark
  have hnil : behind.takeWhile isDigit = [] := by
    by_contra hne
    refine hnone ⟨_, .intro honset.holds (longest_takeWhile isDigit behind).holds hne, ?_⟩
    rw [hcs, List.prefix_append_right_inj]
    exact List.takeWhile_prefix isDigit
  have hdrop : behind.dropWhile isDigit = behind := by
    have hall := List.takeWhile_append_dropWhile (p := isDigit) (l := behind)
    rwa [hnil, List.nil_append] at hall
  refine ⟨onset, behind, hcs, honset, ?_⟩
  rw [hexponent, hnil, hdrop, List.append_nil]
  rfl

/-! ## Whole numbers -/

section Decimals

variable (hfront : Longest IsMantissa front cs) (hcs : cs = front ++ behind)

include hfront hcs

/-- A decimal that begins the text ends within the mantissa, or has an exponent behind it. -/
theorem cases_of_isDecimal {other : List Char} (h : IsDecimal other) (hbegins : other <+: cs) :
    other <+: front ∨ ∃ back, IsExponent back ∧ back <+: behind ∧ other = front ++ back := by
  cases h with
  | plain h => exact .inl (hfront.longest other h.isMantissa hbegins)
  | @scaled front' back h hback =>
    obtain ⟨mark, tail, hmark, rfl⟩ := hback.exists_cons
    -- no mantissa goes on with a mark
    have hends : ∀ rest, ¬ IsMantissa (front' ++ mark :: rest) :=
      fun rest hlonger => hlonger.not_isMark (by simp) hmark
    obtain rfl := hfront.eq_of_append_cons h.isMantissa hbegins hends
    rw [hcs, List.prefix_append_right_inj] at hbegins
    exact .inr ⟨_, hback, hbegins, rfl⟩

/-- Where no exponent stands behind it, the mantissa is the longest decimal. -/
theorem longest_of_not_exists (h : IsSignificand front)
    (hnone : ¬ ∃ back, IsExponent back ∧ back <+: behind) : Longest IsDecimal front cs where
  holds := .plain h
  begins := hfront.begins
  longest := by
    intro other hother hbegins
    rcases cases_of_isDecimal hfront hcs hother hbegins with hwithin | ⟨back, hback, hprefix, -⟩
    · exact hwithin
    · exact absurd ⟨back, hback, hprefix⟩ hnone

/-- Otherwise it is the mantissa with the longest exponent. -/
theorem longest_of_exponent (h : IsSignificand front) (hback : Longest IsExponent back behind) :
    Longest IsDecimal (front ++ back) cs where
  holds := .scaled h hback.holds
  begins := by
    rw [hcs, List.prefix_append_right_inj]
    exact hback.begins
  longest := by
    intro other hother hbegins
    rcases cases_of_isDecimal hfront hcs hother hbegins with hwithin | ⟨back', hback', hprefix, rfl⟩
    · exact hwithin.trans (List.prefix_append ..)
    · rw [List.prefix_append_right_inj]
      exact hback.longest back' hback' hprefix

end Decimals

/-- What is read is a number, or is found not to be one. -/
def ConcernsNumber (outcome : Except Fault Token.Kind) : Prop :=
  (∃ value, outcome = .ok (.number value)) ∨ ∃ lexeme, outcome = .error (.invalidNumber lexeme)

/-- Only where a number begins is one read. -/
theorem beginsNumber_of_concernsNumber {c : Char} (h : ConcernsNumber (ofChar c cs).outcome) :
    BeginsNumber (c :: cs) := by
  have hother : ∀ kind, (∀ value, kind ≠ .number value) → ¬ ConcernsNumber (.ok kind) := by
    rintro kind hkind (⟨value, heq⟩ | ⟨lexeme, heq⟩)
    · exact hkind value (Except.ok.inj heq)
    · cases heq
  have hfault : ∀ fault, (∀ lexeme, fault ≠ .invalidNumber lexeme) →
      ¬ ConcernsNumber (.error fault) := by
    rintro fault hfault (⟨value, heq⟩ | ⟨lexeme, heq⟩)
    · cases heq
    · exact hfault lexeme (Except.error.inj heq)
  revert h
  apply ofChar_cases (P := fun scan => ConcernsNumber scan.outcome → BeginsNumber (c :: cs))
  · exact fun h _ => h
  · intro _ h
    unfold string at h
    split at h
    · exact absurd h (hfault _ nofun)
    · exact absurd h (hother _ nofun)
  · exact fun _ h => absurd h (hother _ nofun)
  · exact fun _ h => absurd h (hother _ nofun)
  · exact fun _ h => absurd h (hother _ nofun)
  · exact fun _ h => absurd h (hother _ nofun)
  · apply operator_cases (P := fun scan => ConcernsNumber scan.outcome → BeginsNumber (c :: cs))
    · exact fun _ _ _ _ h => absurd h (hother _ nofun)
    · exact fun _ h => absurd h (hother _ nofun)
    · exact fun h => absurd h (hfault _ nofun)

/-- A decimal that is taken whole is read as a text of its own. -/
theorem exists_numberOutcome (h : IsDecimal cs) :
    ∃ value, ofText? (String.ofList cs) = some value ∧
      numberOutcome true cs = .ok (.number value) := by
  obtain ⟨value, hvalue⟩ := Option.isSome_iff_exists.mp (h.isSome_read? false)
  refine ⟨value, h.ofText?_eq.trans hvalue, ?_⟩
  simp only [numberOutcome, hvalue, if_true]

end Scan

namespace Cursor

open Decimal Scan

variable {c : Cursor} {lexeme back rest : List Char}

/-- The next token is the number `lexeme`, which leaves `rest` to be read; its value is that of the
lexeme as a text of its own. -/
def FindsNumber (c : Cursor) (lexeme rest : List Char) : Prop :=
  ∃ value, ofText? (String.ofList lexeme) = some value ∧
    c.next = (.ok (some ⟨.number value, String.ofList lexeme, c.skipBlanks.position, lexeme.length⟩),
      ⟨rest, c.skipBlanks.position + lexeme.length⟩)

/-- There is no next token: `lexeme` is a number up to the digits of its exponent, which are
missing. -/
def MissesDigits (c : Cursor) (lexeme rest : List Char) : Prop :=
  c.next = (.error (.positioned .missingExponentDigits c.skipBlanks.position lexeme.length),
    ⟨rest, c.skipBlanks.position + lexeme.length⟩)

/-- What is made of a number that begins with the mantissa `front`. -/
structure Munches (c : Cursor) (front behind : List Char) : Prop where
  split : c.skipBlanks.rest = front ++ behind
  mantissa : Longest IsMantissa front c.skipBlanks.rest
  /-- Without the mark of an exponent behind it, the mantissa is the number. -/
  whole : ¬ BeginsExponent behind → c.FindsNumber front behind
  /-- An exponent behind it belongs to the number, with all its digits. -/
  scaled : (∃ back, IsExponent back ∧ back <+: behind) →
    ∃ back rest, behind = back ++ rest ∧ Longest IsExponent back behind ∧
      c.FindsNumber (front ++ back) rest
  /-- With a mark behind it but no exponent, nothing is found. The fault covers the mantissa, the
  mark, and the sign if there is one. -/
  broken : BeginsExponent behind → (¬ ∃ back, IsExponent back ∧ back <+: behind) →
    ∃ onset rest, behind = onset ++ rest ∧ Longest IsOnset onset behind ∧
      c.MissesDigits (front ++ onset) rest

/-- The mantissa is the one the scan takes, since there is only one that is longest. -/
theorem Munches.mantissa_eq {front behind : List Char} (h : c.Munches front behind) :
    Scan.mantissa c.skipBlanks.rest = (front, behind) := by
  have hfront := (longest_mantissa c.skipBlanks.rest).unique h.mantissa
  have happend := (mantissa_append c.skipBlanks.rest).trans h.split
  rw [hfront] at happend
  exact Prod.ext hfront (List.append_cancel_left happend)

section Beginning

variable (h : BeginsNumber c.skipBlanks.rest)

include h

/-- What is read where a number begins with the mantissa `front`. -/
theorem munches_of_beginsNumber : ∃ front behind, c.Munches front behind := by
  obtain ⟨first, others, hrest⟩ := List.exists_cons_of_ne_nil h.ne_nil
  have hscan : ofChar first others = number c.skipBlanks.rest := by
    rw [hrest] at h ⊢
    exact ofChar_of_beginsNumber h
  have hfront := longest_mantissa c.skipBlanks.rest
  have hsplit := (mantissa_append c.skipBlanks.rest).symm
  rcases hmantissa : mantissa c.skipBlanks.rest with ⟨front, behind⟩
  rw [hmantissa] at hfront hsplit
  have hsignificand := isSignificand_of_longest h hfront
  have hfinds : ∀ {back rest}, exponent behind = (back, true, rest) → IsDecimal (front ++ back) →
      c.FindsNumber (front ++ back) rest := by
    intro back rest hexponent hdecimal
    obtain ⟨value, hvalue, houtcome⟩ := exists_numberOutcome hdecimal
    rw [number_eq hmantissa hexponent, houtcome] at hscan
    exact ⟨value, hvalue, next_of_ok hrest hscan⟩
  refine ⟨front, behind, hsplit, hfront, ?_, ?_, ?_⟩
  · intro hmark
    have hwhole := hfinds (exponent_of_not_begins hmark)
    rw [List.append_nil] at hwhole
    exact hwhole (.plain hsignificand)
  · intro hexists
    obtain ⟨back, rest, hbehind, hback, hexponent⟩ := exponent_of_exists hexists
    exact ⟨back, rest, hbehind, hback, hfinds hexponent (.scaled hsignificand hback.holds)⟩
  · intro hmark hnone
    obtain ⟨onset, rest, hbehind, honset, hexponent⟩ := exponent_of_not_exists hmark hnone
    rw [number_eq hmantissa hexponent] at hscan
    have hpos : 1 ≤ (front ++ onset).length :=
      List.length_pos_iff.mpr (List.append_ne_nil_of_left_ne_nil hsignificand.ne_nil onset)
    have hnext := next_of_error hrest hscan
    rw [max_eq_right hpos] at hnext
    exact ⟨onset, rest, hbehind, honset, hnext⟩

/-- Either a number is found, which is the longest decimal there is, or the digits of its exponent are
missing. -/
theorem finds_or_misses :
    (∃ lexeme rest, c.FindsNumber lexeme rest ∧ Longest IsDecimal lexeme c.skipBlanks.rest) ∨
      ∃ lexeme rest, c.MissesDigits lexeme rest := by
  obtain ⟨front, behind, hmunches⟩ := munches_of_beginsNumber h
  have hsignificand := isSignificand_of_longest h hmunches.mantissa
  by_cases hexists : ∃ back, IsExponent back ∧ back <+: behind
  · obtain ⟨back, rest, -, hback, hfinds⟩ := hmunches.scaled hexists
    exact .inl ⟨front ++ back, rest, hfinds,
      longest_of_exponent hmunches.mantissa hmunches.split hsignificand hback⟩
  by_cases hmark : BeginsExponent behind
  · obtain ⟨onset, rest, -, -, hmisses⟩ := hmunches.broken hmark hexists
    exact .inr ⟨front ++ onset, rest, hmisses⟩
  · exact .inl ⟨front, behind, hmunches.whole hmark,
      longest_of_not_exists hmunches.mantissa hmunches.split hsignificand hexists⟩

end Beginning

/-- Where none begins, no number is found, and none is invalid. -/
theorem next_of_not_beginsNumber (h : ¬ BeginsNumber c.skipBlanks.rest) :
    (∀ token c' value, c.next = (.ok (some token), c') → token.kind ≠ .number value) ∧
      ∀ lexeme offset length c',
        c.next ≠ (.error (.positioned (.invalidNumber lexeme) offset length), c') := by
  cases hrest : c.skipBlanks.rest with
  | nil =>
    rw [next_of_nil hrest]
    exact ⟨fun _ _ _ => nofun, fun _ _ _ _ => nofun⟩
  | cons first others =>
    rw [hrest] at h
    rcases hscan : ofChar first others with ⟨outcome, lexeme, rest⟩
    have hnot : ¬ ConcernsNumber outcome := by
      intro hnumber
      have houtcome : (ofChar first others).outcome = outcome := congrArg Scan.outcome hscan
      exact h (beginsNumber_of_concernsNumber (houtcome ▸ hnumber))
    cases outcome with
    | ok kind =>
      rw [next_of_ok hrest hscan]
      refine ⟨?_, fun _ _ _ _ => nofun⟩
      rintro _ _ value ⟨⟩ hkind
      exact hnot (.inl ⟨value, congrArg Except.ok hkind⟩)
    | error fault =>
      rw [next_of_error hrest hscan]
      refine ⟨fun _ _ _ => nofun, ?_⟩
      rintro lexeme' _ _ _ ⟨⟩
      exact hnot (.inr ⟨lexeme', rfl⟩)

/-- Where a number begins, as much of it is read as its grammar allows, or its exponent is found to
have no digits. Whatever number is found anywhere is the longest decimal that begins there and has the
value of its text, and no number is ever invalid. -/
theorem numbers_munched (c : Cursor) :
    (BeginsNumber c.skipBlanks.rest → ∃ front behind, c.Munches front behind) ∧
    (∀ token c' value, c.next = (.ok (some token), c') → token.kind = .number value →
      Longest IsDecimal token.text.toList c.skipBlanks.rest ∧ ofText? token.text = some value) ∧
    ∀ lexeme offset length c',
      c.next ≠ (.error (.positioned (.invalidNumber lexeme) offset length), c') := by
  refine ⟨munches_of_beginsNumber, ?_, ?_⟩
  · intro token c' value hnext hkind
    by_cases h : BeginsNumber c.skipBlanks.rest
    · rcases finds_or_misses h with ⟨lexeme, rest, ⟨x, hx, hfinds⟩, hlongest⟩ | ⟨_, _, hmisses⟩
      · cases hfinds.symm.trans hnext
        cases hkind
        exact ⟨String.toList_ofList.symm ▸ hlongest, hx⟩
      · cases hmisses.symm.trans hnext
    · exact absurd hkind ((next_of_not_beginsNumber h).1 token c' value hnext)
  · intro lexeme offset length c' hnext
    by_cases h : BeginsNumber c.skipBlanks.rest
    · rcases finds_or_misses h with ⟨_, _, ⟨_, _, hfinds⟩, _⟩ | ⟨_, _, hmisses⟩
      · cases hfinds.symm.trans hnext
      · cases hmisses.symm.trans hnext
    · exact (next_of_not_beginsNumber h).2 lexeme offset length c' hnext

/-- A number behind a blank, with an exponent that ends before an operator; and one whose exponent
has a sign and no digits. -/
theorem numbers_munched_scaled :
    BeginsNumber (ofText " 12.5e-3+").skipBlanks.rest ∧
      (ofText " 12.5e-3+").FindsNumber "12.5e-3".toList ['+'] ∧
      Longest IsDecimal "12.5e-3".toList "12.5e-3+".toList ∧
      BeginsNumber (ofText ".5E+x").skipBlanks.rest ∧
      (ofText ".5E+x").MissesDigits ".5E+".toList ['x'] := by
  have hbegins : BeginsNumber (ofText " 12.5e-3+").skipBlanks.rest :=
    ⟨'1', "2.5e-3+".toList, rfl, .inl rfl⟩
  have hbegins' : BeginsNumber (ofText ".5E+x").skipBlanks.rest :=
    ⟨'5', "E+x".toList, rfl, .inr rfl⟩
  have hfinds : (ofText " 12.5e-3+").FindsNumber "12.5e-3".toList ['+'] := by
    obtain ⟨front, behind, hmunches⟩ := (numbers_munched (ofText " 12.5e-3+")).1 hbegins
    have hmantissa : mantissa "12.5e-3+".toList = ("12.5".toList, "e-3+".toList) := rfl
    cases hmantissa.symm.trans hmunches.mantissa_eq
    have hexists : ∃ back, IsExponent back ∧ back <+: "e-3+".toList :=
      ⟨_, @IsExponent.intro ['e', '-'] ['3'] (.signed (.inl rfl) (by decide))
        (forall_mem_of_all (by decide)) (by decide), ⟨['+'], rfl⟩⟩
    obtain ⟨back, rest, hbehind, hback, hfinds⟩ := hmunches.scaled hexists
    have hexponent : exponent "e-3+".toList = ("e-3".toList, true, ['+']) := rfl
    cases hexponent.symm.trans (exponent_eq_of_longest hback hbehind)
    exact hfinds
  refine ⟨hbegins, hfinds, ?_, hbegins', ?_⟩
  · obtain ⟨value, -, hnext⟩ := hfinds
    have hlongest := ((numbers_munched (ofText " 12.5e-3+")).2.1 _ _ value hnext rfl).1
    rwa [String.toList_ofList] at hlongest
  · obtain ⟨front, behind, hmunches⟩ := (numbers_munched (ofText ".5E+x")).1 hbegins'
    have hmantissa : mantissa ".5E+x".toList = (".5".toList, "E+x".toList) := rfl
    cases hmantissa.symm.trans hmunches.mantissa_eq
    have hexponent : exponent "E+x".toList = ("E+".toList, false, ['x']) := rfl
    have hnone : ¬ ∃ back, IsExponent back ∧ back <+: "E+x".toList := by
      intro hexists
      obtain ⟨back, rest, -, -, hwhole⟩ := exponent_of_exists hexists
      cases hexponent.symm.trans hwhole
    obtain ⟨onset, rest, hbehind, honset, hmisses⟩ := hmunches.broken ⟨'E', rfl, .inr rfl⟩ hnone
    have hlongest : Longest IsOnset "E+".toList "E+x".toList :=
      longest_onset_signed (.inr rfl) (by decide) ['x']
    obtain rfl := honset.unique hlongest
    have hrest : "E+".toList ++ ['x'] = "E+".toList ++ rest := hbehind
    obtain rfl := List.append_cancel_left hrest
    exact hmisses

end Cursor

end Formula
