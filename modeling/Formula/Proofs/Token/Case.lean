import Formula.Proofs.Decimal.Grammar
import Formula.Proofs.Pieces

/-! # Letter case outside quotes

A text may be folded outside its quotes, and its nesting stays what it was. The lexer has regard to
classes of characters that have none to case, so what it finds in a folded text is what it finds in
the text, folded. So are the groups it captures and the pieces argument lists are cut into.
-/

namespace Formula

namespace Nesting

variable {t t' : Nesting} {c d : Char} {cs ds : List Char}

/-! ## Folding -/

/-- The character, made small if no string is open. -/
def foldChar (t : Nesting) (c : Char) : Char :=
  if t.quoted then c else c.toLower

/-- The text behind a place, with every ASCII capital outside quotes made small. -/
def fold (t : Nesting) : List Char → List Char
  | [] => []
  | c :: cs => t.foldChar c :: (t.advance c).fold cs

theorem length_fold (t : Nesting) (cs : List Char) : (t.fold cs).length = cs.length := by
  induction cs generalizing t with
  | nil => rfl
  | cons c cs ih => exact congrArg Nat.succ (ih (t.advance c))

theorem foldChar_eq_iff (hd : d.isAlpha = false) : t.foldChar c = d ↔ c = d := by
  unfold foldChar
  split
  · exact Iff.rfl
  · exact Text.toLower_eq_iff hd

theorem toLower_foldChar : (t.foldChar c).toLower = c.toLower := by
  unfold foldChar
  split
  · rfl
  · exact Text.toLower_toLower c

/-- The characters that nest are not letters. -/
theorem advance_foldChar (u : Nesting) : u.advance (t.foldChar c) = u.advance c := by
  have hquote : t.foldChar c = quote ↔ c = quote := foldChar_eq_iff (by decide)
  have hopening : t.foldChar c = '[' ↔ c = '[' := foldChar_eq_iff (by decide)
  have hclosing : t.foldChar c = ']' ↔ c = ']' := foldChar_eq_iff (by decide)
  have hparen : t.foldChar c = '(' ↔ c = '(' := foldChar_eq_iff (by decide)
  have hend : t.foldChar c = ')' ↔ c = ')' := foldChar_eq_iff (by decide)
  simp only [advance, hquote, hopening, hclosing, hparen, hend]

/-- Only whether a string is open matters. -/
theorem fold_congr (h : t.quoted = t'.quoted) (cs : List Char) : t.fold cs = t'.fold cs := by
  induction cs generalizing t t' with
  | nil => rfl
  | cons c cs ih =>
    rw [fold, fold, foldChar, foldChar, h, ih (quoted_advance_congr h c)]

theorem fold_cons (hc : c ≠ quote) (cs : List Char) :
    top.fold (c :: cs) = c.toLower :: top.fold cs := by
  rw [fold, fold_congr (quoted_advance hc)]
  rfl

/-- Inside a string nothing is. -/
theorem takeWhile_fold_of_quoted (h : t.quoted = true) (cs : List Char) :
    (t.fold cs).takeWhile (· ≠ quote) = cs.takeWhile (· ≠ quote) := by
  induction cs generalizing t with
  | nil => rfl
  | cons c cs ih =>
    have hhere : t.foldChar c = c := if_pos h
    rw [fold, hhere]
    by_cases hc : c = quote
    · rw [List.takeWhile_cons_of_neg (by simpa using hc),
        List.takeWhile_cons_of_neg (by simpa using hc)]
    · rw [List.takeWhile_cons_of_pos (by simpa using hc),
        List.takeWhile_cons_of_pos (by simpa using hc), ih ((quoted_advance hc).trans h)]

/-- Behind the string the text is folded again. -/
theorem dropWhile_fold_of_quoted (h : t.quoted = true) (cs : List Char) :
    (t.fold cs).dropWhile (· ≠ quote) =
      match cs.dropWhile (· ≠ quote) with
      | [] => []
      | _ :: rest => quote :: top.fold rest := by
  induction cs generalizing t with
  | nil => rfl
  | cons c cs ih =>
    have hhere : t.foldChar c = c := if_pos h
    rw [fold, hhere]
    by_cases hc : c = quote
    · have hbehind : (t.advance c).quoted = top.quoted := by
        rw [hc, advance, if_pos rfl, h]
        rfl
      rw [List.dropWhile_cons_of_neg (by simpa using hc),
        List.dropWhile_cons_of_neg (by simpa using hc), fold_congr hbehind, hc]
    · rw [List.dropWhile_cons_of_pos (by simpa using hc),
        List.dropWhile_cons_of_pos (by simpa using hc), ih ((quoted_advance hc).trans h)]

/-- The head of a text is no more one of the characters that are not letters when it is folded. -/
theorem not_mem_of_mem_head?_fold (hds : ∀ d ∈ ds, d.isAlpha = false) (h : ∀ c ∈ cs.head?, c ∉ ds) :
    ∀ c ∈ (t.fold cs).head?, c ∉ ds := by
  cases cs with
  | nil => exact fun _ => nofun
  | cons c cs =>
    rintro _ ⟨⟩ hmem
    have heq := (foldChar_eq_iff (hds _ hmem)).mp rfl
    rw [← heq] at hmem
    exact h c rfl hmem

/-- A run of characters of a class with no regard to case, without quotes. -/
theorem takeWhile_fold {p : Char → Bool} (hp : ∀ c, p c.toLower = p c) (hquote : p quote = false)
    (cs : List Char) :
    (top.fold cs).takeWhile p = (cs.takeWhile p).map Char.toLower ∧
      (top.fold cs).dropWhile p = top.fold (cs.dropWhile p) := by
  induction cs with
  | nil => exact ⟨rfl, rfl⟩
  | cons c cs ih =>
    by_cases hc : p c = true
    · have hne : c ≠ quote := by
        rintro rfl
        rw [hquote] at hc
        cases hc
      have hlower : p c.toLower = true := (hp c).trans hc
      rw [fold_cons hne, List.takeWhile_cons_of_pos hlower, List.takeWhile_cons_of_pos hc,
        List.dropWhile_cons_of_pos hlower, List.dropWhile_cons_of_pos hc, List.map_cons, ih.1]
      exact ⟨rfl, ih.2⟩
    · have hlower : ¬ p c.toLower = true := by rwa [hp c]
      have hfold : top.fold (c :: cs) = c.toLower :: (top.advance c).fold cs := rfl
      rw [List.takeWhile_cons_of_neg hc, List.dropWhile_cons_of_neg hc, hfold,
        List.takeWhile_cons_of_neg hlower, List.dropWhile_cons_of_neg hlower]
      exact ⟨rfl, rfl⟩

end Nesting

/-! ## Numbers -/

/-- The mark of an exponent may be written in either case. -/
theorem Scan.mark_iff {c : Char} : c = 'e' ∨ c = 'E' ↔ c.toLower = 'e' := by
  constructor
  · rintro (rfl | rfl)
    · rfl
    · rfl
  · intro h
    by_cases hupper : c.isUpper = true
    · right
      have hmoved := Text.toNat_toLower_of_isUpper hupper
      rw [h] at hmoved
      have hdistance : 'e'.toNat = 'E'.toNat + 0x20 := rfl
      exact Char.toNat_inj.mp (by omega)
    · left
      rwa [Text.toLower_of_not_isUpper hupper] at h

theorem Scan.mark_toLower {c : Char} : c.toLower = 'e' ∨ c.toLower = 'E' ↔ c = 'e' ∨ c = 'E' := by
  rw [mark_iff, mark_iff, Text.toLower_toLower]

namespace Decimal

variable {cs : List Char}

theorem toLower_of_isDigit {c : Char} (h : isDigit c = true) : c.toLower = c := by
  refine Text.toLower_of_not_isUpper fun hupper => ?_
  have hletter := Text.isLetter_of_isLower_toLower (Text.isLower_toLower_of_isUpper hupper)
  rw [Text.isDigit_eq_false_of_startsName (Text.startsName_of_isLetter hletter)] at h
  cases h

theorem map_toLower_of_digits (h : ∀ c ∈ cs, isDigit c = true) : cs.map Char.toLower = cs :=
  (List.map_congr_left fun c hc => toLower_of_isDigit (h c hc)).trans (List.map_id cs)

theorem takeWhile_map_toLower (cs : List Char) :
    (cs.map Char.toLower).takeWhile isDigit = cs.takeWhile isDigit := by
  have hclass : isDigit ∘ Char.toLower = isDigit := funext Text.isDigit_toLower
  rw [List.takeWhile_map, hclass]
  exact map_toLower_of_digits fun c hc => List.mem_takeWhile_imp hc

theorem dropWhile_map_toLower (cs : List Char) :
    (cs.map Char.toLower).dropWhile isDigit = (cs.dropWhile isDigit).map Char.toLower := by
  have hclass : isDigit ∘ Char.toLower = isDigit := funext Text.isDigit_toLower
  rw [List.dropWhile_map, hclass]

theorem all_map_toLower (cs : List Char) :
    (cs.map Char.toLower).all isDigit = cs.all isDigit := by
  have hclass : isDigit ∘ Char.toLower = isDigit := funext Text.isDigit_toLower
  rw [List.all_map, hclass]

/-- The digits of an exponent, behind its sign. -/
theorem readExponent?_map_toLower (cs : List Char) :
    readExponent? (cs.map Char.toLower) = readExponent? cs := by
  have hdigits : ∀ (negative : Bool) (digits : List Char),
      (if (digits.map Char.toLower).isEmpty || !(digits.map Char.toLower).all isDigit then none
        else some (if negative then -(ofDigits (digits.map Char.toLower) : Int)
          else ofDigits (digits.map Char.toLower))) =
      if digits.isEmpty || !digits.all isDigit then none
        else some (if negative then -(ofDigits digits : Int) else ofDigits digits) := by
    intro negative digits
    rw [all_map_toLower, List.isEmpty_map]
    split
    · rfl
    · rename_i hsome
      rw [map_toLower_of_digits]
      simp at hsome
      exact hsome.2
  cases cs with
  | nil => rfl
  | cons c cs =>
    by_cases hplus : c = '+'
    · subst hplus
      exact hdigits false cs
    by_cases hminus : c = '-'
    · subst hminus
      exact hdigits true cs
    have hplus' : ¬ c.toLower = '+' := by rwa [Text.toLower_eq_iff (by decide)]
    have hminus' : ¬ c.toLower = '-' := by rwa [Text.toLower_eq_iff (by decide)]
    have hwhole := hdigits false (c :: cs)
    simpa [readExponent?, hplus, hminus, hplus', hminus'] using hwhole

theorem readBehind?_map_toLower (negative : Bool) (whole fraction rest : List Char) :
    readBehind? negative whole fraction (rest.map Char.toLower) =
      readBehind? negative whole fraction rest := by
  unfold readBehind?
  cases rest with
  | nil => rfl
  | cons c rest => simp only [List.map_cons, Scan.mark_toLower, readExponent?_map_toLower]

/-- A decimal has its value in either case. -/
theorem read?_map_toLower (negative : Bool) (cs : List Char) :
    read? negative (cs.map Char.toLower) = read? negative cs := by
  by_cases hpoint : ∃ rest, cs.dropWhile isDigit = '.' :: rest
  · obtain ⟨rest, hrest⟩ := hpoint
    have hlower : (cs.map Char.toLower).dropWhile isDigit = '.' :: rest.map Char.toLower := by
      rw [dropWhile_map_toLower, hrest]
      rfl
    rw [read?_of_point hrest, read?_of_point hlower, takeWhile_map_toLower, takeWhile_map_toLower,
      dropWhile_map_toLower, readBehind?_map_toLower]
  · have hnot : ∀ c ∈ (cs.dropWhile isDigit).head?, c ≠ '.' := by
      rintro c hc rfl
      exact hpoint (List.head?_eq_some_iff.mp hc)
    have hlower : ∀ c ∈ ((cs.map Char.toLower).dropWhile isDigit).head?, c ≠ '.' := by
      rw [dropWhile_map_toLower, List.head?_map]
      intro c hc
      obtain ⟨d, hd, rfl⟩ := Option.map_eq_some_iff.mp hc
      rw [ne_eq, Text.toLower_eq_iff (by decide)]
      exact hnot d hd
    rw [read?_of_not_point hnot, read?_of_not_point hlower, takeWhile_map_toLower,
      dropWhile_map_toLower, readBehind?_map_toLower]

end Decimal

namespace Scan

open Nesting

variable {c : Char} {cs : List Char}

theorem exponent_fold (cs : List Char) :
    exponent (top.fold cs) =
      ((exponent cs).1.map Char.toLower, (exponent cs).2.1, top.fold (exponent cs).2.2) := by
  cases cs with
  | nil => rfl
  | cons mark cs =>
    by_cases hmark : mark = 'e' ∨ mark = 'E'
    · have hmark' := mark_toLower.mpr hmark
      have hquote : mark ≠ quote := by
        rintro rfl
        revert hmark
        decide
      rw [fold_cons hquote]
      by_cases hsigned : ∃ sign rest, cs = sign :: rest ∧ sign ∈ ['+', '-']
      · obtain ⟨sign, rest, rfl, hsign⟩ := hsigned
        have hsigns : ∀ sign ∈ ['+', '-'], sign ≠ quote ∧ sign.toLower = sign :=
          forall_mem_of_all (by decide)
        obtain ⟨hne, hlower⟩ := hsigns sign hsign
        obtain ⟨htake, hdrop⟩ := takeWhile_fold Text.isDigit_toLower (by decide) rest
        rw [fold_cons hne, hlower, exponent_of_sign hmark hsign, exponent_of_sign hmark' hsign, htake,
          hdrop, List.isEmpty_map, List.map_cons, List.map_cons, hlower]
      · have hnot : ∀ c ∈ cs.head?, c ∉ ['+', '-'] := by
          intro c hc hsign
          obtain ⟨rest, rfl⟩ := List.head?_eq_some_iff.mp hc
          exact hsigned ⟨c, rest, rfl, hsign⟩
        have hnot' := @not_mem_of_mem_head?_fold top cs ['+', '-']
          (forall_mem_of_all (by decide)) hnot
        obtain ⟨htake, hdrop⟩ := takeWhile_fold Text.isDigit_toLower (by decide) cs
        rw [exponent_of_not_sign hmark hnot, exponent_of_not_sign hmark' hnot', htake, hdrop,
          List.isEmpty_map, List.map_cons]
    · have hmark' : ¬ (top.foldChar mark = 'e' ∨ top.foldChar mark = 'E') :=
        mark_toLower.not.mpr hmark
      rw [fold]
      simp only [exponent, if_neg hmark, if_neg hmark']
      rfl

theorem mantissa_fold (cs : List Char) :
    mantissa (top.fold cs) = ((mantissa cs).1.map Char.toLower, top.fold (mantissa cs).2) := by
  obtain ⟨htake, hdrop⟩ := takeWhile_fold Text.isDigit_toLower (by decide) cs
  by_cases hpoint : ∃ rest, cs.dropWhile Decimal.isDigit = '.' :: rest
  · obtain ⟨rest, hrest⟩ := hpoint
    have hrest' : (top.fold cs).dropWhile Decimal.isDigit = '.' :: top.fold rest := by
      rw [hdrop, hrest]
      exact fold_cons (by decide) rest
    obtain ⟨htake', hdrop'⟩ := takeWhile_fold Text.isDigit_toLower (by decide) rest
    rw [mantissa_of_point hrest, mantissa_of_point hrest', htake, htake', hdrop', List.map_append]
    rfl
  · have hnot : ∀ c ∈ (cs.dropWhile Decimal.isDigit).head?, c ∉ ['.'] := by
      intro c hc hmem
      rw [List.mem_singleton.mp hmem] at hc
      exact hpoint (List.head?_eq_some_iff.mp hc)
    have hnot' := @not_mem_of_mem_head?_fold top _ ['.'] (forall_mem_of_all (by decide)) hnot
    rw [← hdrop] at hnot'
    rw [mantissa_of_not_point hnot, mantissa_of_not_point hnot', htake, hdrop]

/-- The second scan is the first, folded outside quotes. -/
structure Folds (scan scan' : Scan) : Prop where
  outcome_eq : scan'.outcome = scan.outcome.mapError Fault.lowered
  lexeme_eq : scan'.lexeme.map Char.toLower = scan.lexeme.map Char.toLower
  verbatim : scan.outcome = .ok .string → scan'.lexeme = scan.lexeme
  rest_eq : scan'.rest = top.fold scan.rest

theorem numberOutcome_map_toLower (complete : Bool) (lexeme : List Char) :
    numberOutcome complete (lexeme.map Char.toLower) =
      (numberOutcome complete lexeme).mapError Fault.lowered := by
  unfold numberOutcome
  rw [Decimal.read?_map_toLower]
  cases complete with
  | false => rfl
  | true =>
    cases Decimal.read? false lexeme with
    | some value => rfl
    | none => simp [Except.mapError, Fault.lowered, Text.lowered, Text.fold]

theorem numberOutcome_ne_string (complete : Bool) (lexeme : List Char) :
    numberOutcome complete lexeme ≠ .ok .string := by
  unfold numberOutcome
  cases complete with
  | false => exact nofun
  | true =>
    cases Decimal.read? false lexeme with
    | some value => exact nofun
    | none => exact nofun

/-- A number in other letters is the same number, or the same fault. -/
theorem number_fold (cs : List Char) : Folds (number cs) (number (top.fold cs)) := by
  have hmantissa := mantissa_fold cs
  rcases hfront : mantissa cs with ⟨front, behind⟩
  have hexponent := exponent_fold behind
  rcases hback : exponent behind with ⟨back, complete, rest⟩
  rw [hfront] at hmantissa
  rw [hback] at hexponent
  rw [number_eq hfront hback, number_eq hmantissa hexponent, ← List.map_append]
  exact ⟨numberOutcome_map_toLower complete (front ++ back),
    Text.map_toLower_map_toLower (front ++ back),
    fun hstring => absurd hstring (numberOutcome_ne_string complete (front ++ back)), rfl⟩

/-- A string stays as it is. -/
theorem string_fold (cs : List Char) : Folds (string cs) (string ((top.advance quote).fold cs)) := by
  have htake := @takeWhile_fold_of_quoted (top.advance quote) rfl cs
  have hdrop := @dropWhile_fold_of_quoted (top.advance quote) rfl cs
  unfold string
  rw [htake, hdrop]
  cases cs.dropWhile (· ≠ quote) with
  | nil => exact ⟨rfl, rfl, nofun, rfl⟩
  | cons c rest => exact ⟨rfl, rfl, fun _ => rfl, rfl⟩

/-- No operator has a letter. -/
theorem operator_fold (hc : c ≠ quote) (cs : List Char) :
    Folds (operator c cs) (operator c.toLower (top.fold cs)) := by
  have hletters : ∀ d ∈ oneCharOperators, d.isAlpha = false := forall_mem_of_all (by decide)
  have hpairs : ∀ pair ∈ twoCharOperators, pair.1.isAlpha = false ∧ pair.2.isAlpha = false ∧
      pair.2 ≠ quote := forall_mem_of_all (by decide)
  have hsingle : Folds
      (if c ∈ oneCharOperators then ⟨.ok .operator, [c], cs⟩
        else ⟨.error (.unexpectedCharacter c), [], c :: cs⟩)
      (if c.toLower ∈ oneCharOperators then ⟨.ok .operator, [c.toLower], top.fold cs⟩
        else ⟨.error (.unexpectedCharacter c.toLower), [], c.toLower :: top.fold cs⟩) := by
    rw [← fold_cons hc]
    simp only [Text.toLower_mem_iff hletters]
    split
    · rename_i hmem
      rw [(Text.toLower_eq_iff (hletters c hmem)).mpr rfl]
      exact ⟨rfl, rfl, nofun, rfl⟩
    · exact ⟨rfl, rfl, nofun, rfl⟩
  cases cs with
  | nil => exact hsingle
  | cons d rest =>
    have hpair : (c.toLower, d.toLower) ∈ twoCharOperators ↔ (c, d) ∈ twoCharOperators := by
      constructor
      · intro hmem
        have hparts := hpairs _ hmem
        rw [(Text.toLower_eq_iff hparts.1).mp rfl, (Text.toLower_eq_iff hparts.2.1).mp rfl]
        exact hmem
      · intro hmem
        have hparts := hpairs _ hmem
        rw [(Text.toLower_eq_iff hparts.1).mpr rfl, (Text.toLower_eq_iff hparts.2.1).mpr rfl]
        exact hmem
    show Folds (if (c, d) ∈ twoCharOperators then _ else _)
      (if (c.toLower, d.toLower) ∈ twoCharOperators then _ else _)
    by_cases hmem : (c, d) ∈ twoCharOperators
    · have hparts := hpairs _ hmem
      rw [if_pos hmem, if_pos (hpair.mpr hmem), fold_congr (quoted_advance hparts.2.2)]
      refine ⟨rfl, ?_, nofun, rfl⟩
      simp only [List.map_cons, Text.toLower_toLower, toLower_foldChar]
    · rw [if_neg hmem, if_neg (hpair.not.mpr hmem)]
      exact hsingle

/-- What is found in a folded text is what is found in the text, folded. -/
theorem ofChar_fold (c : Char) (cs : List Char) :
    Folds (ofChar c cs) (ofChar c.toLower ((top.advance c).fold cs)) := by
  by_cases hquote : c = quote
  · subst hquote
    exact string_fold cs
  have hdigit : digitAhead (top.fold cs) = digitAhead cs := by
    cases cs with
    | nil => rfl
    | cons d cs => exact Text.isDigit_toLower d
  rw [fold_congr (quoted_advance hquote)]
  have hletters : ∀ d ∈ ['.', quote, '(', '[', ')', ']', separator], d.isAlpha = false :=
    forall_mem_of_all (by decide)
  have hsame : ∀ d ∈ ['.', quote, '(', '[', ')', ']', separator], c.toLower = d ↔ c = d :=
    fun d hd => Text.toLower_eq_iff (hletters d hd)
  unfold ofChar
  simp only [Text.isDigit_toLower, Text.startsName_toLower, hdigit, hsame '.' (by decide),
    hsame quote (by decide), hsame '(' (by decide), hsame '[' (by decide), hsame ')' (by decide),
    hsame ']' (by decide), hsame separator (by decide), if_neg hquote]
  have hdelimiter : ∀ kind : Token.Kind, kind ≠ .string →
      Folds ⟨.ok kind, [c], cs⟩ ⟨.ok kind, [c.toLower], top.fold cs⟩ := by
    intro kind hkind
    exact ⟨rfl, Text.map_toLower_map_toLower [c],
      fun hstring => absurd (Except.ok.inj hstring) hkind, rfl⟩
  split
  · rw [← fold_cons hquote]
    exact number_fold (c :: cs)
  split
  · obtain ⟨htake, hdrop⟩ := takeWhile_fold Text.continuesName_toLower (by decide) cs
    rw [htake, hdrop]
    exact ⟨rfl, Text.map_toLower_map_toLower (c :: cs.takeWhile Text.continuesName), nofun, rfl⟩
  split
  · exact hdelimiter .opening nofun
  split
  · exact hdelimiter .closing nofun
  split
  · exact hdelimiter .separator nofun
  · exact operator_fold hquote cs

/-- The scans find the same, in other letters. -/
structure SameCase (scan scan' : Scan) : Prop where
  outcome_eq : scan.outcome.mapError Fault.lowered = scan'.outcome.mapError Fault.lowered
  lexeme_eq : scan.lexeme.map Char.toLower = scan'.lexeme.map Char.toLower
  verbatim : scan.outcome = .ok .string → scan.lexeme = scan'.lexeme
  rest_eq : top.fold scan.rest = top.fold scan'.rest

theorem Folds.sameCase {scan scan' folded : Scan} (h : Folds scan folded) (h' : Folds scan' folded) :
    SameCase scan scan' where
  outcome_eq := h.outcome_eq.symm.trans h'.outcome_eq
  lexeme_eq := h.lexeme_eq.symm.trans h'.lexeme_eq
  verbatim := by
    intro hstring
    have hsame := h.outcome_eq.symm.trans h'.outcome_eq
    rw [hstring] at hsame
    cases hstring' : scan'.outcome with
    | error fault =>
      rw [hstring'] at hsame
      cases hsame
    | ok kind =>
      rw [hstring'] at hsame
      cases hsame
      exact (h.verbatim hstring).symm.trans (h'.verbatim hstring')
  rest_eq := h.rest_eq.symm.trans h'.rest_eq

/-- Texts in other letters have scans that find the same. -/
theorem ofChar_sameCase {c' : Char} {cs' : List Char}
    (h : top.fold (c :: cs) = top.fold (c' :: cs')) : SameCase (ofChar c cs) (ofChar c' cs') := by
  obtain ⟨hfirst, hothers⟩ := List.cons.inj h
  have hfirst : c.toLower = c'.toLower := hfirst
  have hscan' := ofChar_fold c' cs'
  rw [← hfirst, ← hothers] at hscan'
  exact (ofChar_fold c cs).sameCase hscan'

end Scan

end Formula
