import Formula.Token.Lexer
import Mathlib.Data.List.TakeWhile

/-! # What a scan finds

A scan cuts the text in two: the lexeme, and the rest. `Token.Kind.Fits` says what the lexemes of each
kind look like, and a scan that finds a kind finds a lexeme that fits it. A scan that faults has read
part of a number or string, or stands before a character that begins nothing.
-/

namespace Formula

/-- The characters of numbers. -/
def Scan.IsNumeric (c : Char) : Prop :=
  Decimal.isDigit c = true ∨ c ∈ ['.', 'e', 'E', '+', '-']

/-- What the lexemes of a kind look like. -/
def Token.Kind.Fits : Token.Kind → List Char → Prop
  | .number value, lexeme =>
    Decimal.read? false lexeme = some value ∧ ∀ c ∈ lexeme, Scan.IsNumeric c
  | .string, lexeme => ∃ inside, lexeme = quote :: inside ++ [quote] ∧ quote ∉ inside
  | .identifier, lexeme =>
    ∃ c cs, lexeme = c :: cs ∧ Text.startsName c = true ∧ ∀ d ∈ cs, Text.continuesName d = true
  | .operator, lexeme =>
    (∃ c ∈ Scan.oneCharOperators, lexeme = [c]) ∨
      ∃ cd ∈ Scan.twoCharOperators, lexeme = [cd.1, cd.2]
  | .opening, lexeme => lexeme = ['('] ∨ lexeme = ['[']
  | .closing, lexeme => lexeme = [')'] ∨ lexeme = [']']
  | .separator, lexeme => lexeme = [Formula.separator]

theorem Token.Kind.ne_nil_of_fits {kind : Token.Kind} {lexeme : List Char}
    (h : kind.Fits lexeme) : lexeme ≠ [] := by
  rintro rfl
  cases kind with
  | number value => cases h.1
  | string =>
    rcases h with ⟨inside, hlexeme, _⟩
    cases hlexeme
  | identifier =>
    rcases h with ⟨c, cs, hlexeme, _⟩
    cases hlexeme
  | operator =>
    rcases h with ⟨c, _, hlexeme⟩ | ⟨cd, _, hlexeme⟩
    · cases hlexeme
    · cases hlexeme
  | opening => rcases h with hlexeme | hlexeme <;> cases hlexeme
  | closing => rcases h with hlexeme | hlexeme <;> cases hlexeme
  | separator => cases h

namespace Scan

/-- A number begins with a digit, or with a point that stands before one. -/
def BeginsNumber (cs : List Char) : Prop :=
  ∃ digit rest, Decimal.isDigit digit = true ∧ (cs = digit :: rest ∨ cs = '.' :: digit :: rest)

theorem beginsNumber_cons_iff {c : Char} {cs : List Char} :
    BeginsNumber (c :: cs) ↔ (Decimal.isDigit c || (c = '.' && digitAhead cs)) = true := by
  rw [Bool.or_eq_true, Bool.and_eq_true, decide_eq_true_eq]
  constructor
  · rintro ⟨digit, rest, hdigit, heq | heq⟩
    · cases heq
      exact Or.inl hdigit
    · cases heq
      exact Or.inr ⟨rfl, hdigit⟩
  · rintro (hdigit | ⟨rfl, hahead⟩)
    · exact ⟨c, cs, hdigit, Or.inl rfl⟩
    · cases cs with
      | nil => cases hahead
      | cons d cs => exact ⟨d, cs, hahead, Or.inr rfl⟩

theorem BeginsNumber.head {c : Char} {cs : List Char} (h : BeginsNumber (c :: cs)) :
    Decimal.isDigit c = true ∨ c = '.' := by
  obtain ⟨digit, rest, hdigit, heq | heq⟩ := h
  · cases heq
    exact Or.inl hdigit
  · cases heq
    exact Or.inr rfl

theorem BeginsNumber.ne_nil {cs : List Char} (h : BeginsNumber cs) : cs ≠ [] := by
  rintro rfl
  obtain ⟨digit, rest, _, heq | heq⟩ := h
  · cases heq
  · cases heq

theorem BeginsNumber.append {cs : List Char} (h : BeginsNumber cs) (tail : List Char) :
    BeginsNumber (cs ++ tail) := by
  obtain ⟨digit, rest, hdigit, rfl | rfl⟩ := h
  · exact ⟨digit, rest ++ tail, hdigit, Or.inl rfl⟩
  · exact ⟨digit, rest ++ tail, hdigit, Or.inr rfl⟩

/-- Where a number begins, a number is scanned. -/
theorem ofChar_of_beginsNumber {c : Char} {cs : List Char} (h : BeginsNumber (c :: cs)) :
    ofChar c cs = number (c :: cs) :=
  if_pos (beginsNumber_cons_iff.mp h)

/-- What holds of the scans for the seven kinds of first characters holds of every scan. -/
theorem ofChar_cases {P : Scan → Prop} {c : Char} {cs : List Char}
    (hnumber : BeginsNumber (c :: cs) → P (number (c :: cs)))
    (hstring : c = quote → P (string cs))
    (hname : Text.startsName c = true →
      P ⟨.ok .identifier, c :: cs.takeWhile Text.continuesName, cs.dropWhile Text.continuesName⟩)
    (hopen : c = '(' ∨ c = '[' → P ⟨.ok .opening, [c], cs⟩)
    (hclose : c = ')' ∨ c = ']' → P ⟨.ok .closing, [c], cs⟩)
    (hseparator : c = separator → P ⟨.ok .separator, [c], cs⟩)
    (hoperator : P (operator c cs)) : P (ofChar c cs) := by
  unfold ofChar
  split
  · exact hnumber (beginsNumber_cons_iff.mpr ‹_›)
  split
  · exact hstring ‹_›
  split
  · exact hname ‹_›
  split
  · exact hopen ‹_›
  split
  · exact hclose ‹_›
  split
  · exact hseparator ‹_›
  · exact hoperator

/-- What holds of the operators of two characters and of one, and of a character that begins nothing,
holds of every scan for an operator. -/
theorem operator_cases {P : Scan → Prop} {c : Char} {cs : List Char}
    (htwo : ∀ d rest, cs = d :: rest → (c, d) ∈ twoCharOperators →
      P ⟨.ok .operator, [c, d], rest⟩)
    (hone : c ∈ oneCharOperators → P ⟨.ok .operator, [c], cs⟩)
    (hnone : P ⟨.error (.unexpectedCharacter c), [], c :: cs⟩) : P (operator c cs) := by
  have hsingle : P (if c ∈ oneCharOperators then ⟨.ok .operator, [c], cs⟩
      else ⟨.error (.unexpectedCharacter c), [], c :: cs⟩) := by
    split
    · exact hone ‹_›
    · exact hnone
  cases cs with
  | nil => exact hsingle
  | cons d rest =>
    show P (if (c, d) ∈ twoCharOperators then _ else _)
    split
    · exact htwo d rest rfl ‹_›
    · exact hsingle

/-- Behind its mark an exponent has a sign or none, and all the digits that follow. -/
theorem exponent_cons {mark : Char} (hmark : mark = 'e' ∨ mark = 'E') (cs : List Char) :
    ∃ sign digits, (sign = [] ∨ sign = ['+'] ∨ sign = ['-']) ∧ cs = sign ++ digits ∧
      exponent (mark :: cs) = (mark :: sign ++ digits.takeWhile Decimal.isDigit,
        !(digits.takeWhile Decimal.isDigit).isEmpty, digits.dropWhile Decimal.isDigit) := by
  simp only [exponent, if_pos hmark]
  split
  · exact ⟨['+'], _, Or.inr (Or.inl rfl), rfl, rfl⟩
  · exact ⟨['-'], _, Or.inr (Or.inr rfl), rfl, rfl⟩
  · exact ⟨[], cs, Or.inl rfl, rfl, rfl⟩

/-- Behind a sign stand the digits of the exponent, as many as there are. -/
theorem exponent_of_sign {mark sign : Char} (hmark : mark = 'e' ∨ mark = 'E')
    (hsign : sign ∈ ['+', '-']) (cs : List Char) :
    exponent (mark :: sign :: cs) = (mark :: sign :: cs.takeWhile Decimal.isDigit,
      !(cs.takeWhile Decimal.isDigit).isEmpty, cs.dropWhile Decimal.isDigit) := by
  simp only [exponent, if_pos hmark]
  simp only [List.mem_cons, List.not_mem_nil, or_false] at hsign
  rcases hsign with rfl | rfl
  · rfl
  · rfl

/-- So they do behind the mark, without a sign. -/
theorem exponent_of_not_sign {mark : Char} (hmark : mark = 'e' ∨ mark = 'E') {cs : List Char}
    (h : ∀ c ∈ cs.head?, c ∉ ['+', '-']) :
    exponent (mark :: cs) = (mark :: cs.takeWhile Decimal.isDigit,
      !(cs.takeWhile Decimal.isDigit).isEmpty, cs.dropWhile Decimal.isDigit) := by
  simp only [exponent, if_pos hmark]
  cases cs with
  | nil => rfl
  | cons c cs =>
    have hsign := h c rfl
    split
    · cases ‹_›
      exact absurd List.mem_cons_self hsign
    · cases ‹_›
      exact absurd (List.mem_cons_of_mem _ List.mem_cons_self) hsign
    · rfl

theorem mantissa_of_point {cs rest : List Char} (h : cs.dropWhile Decimal.isDigit = '.' :: rest) :
    mantissa cs = (cs.takeWhile Decimal.isDigit ++ '.' :: rest.takeWhile Decimal.isDigit,
      rest.dropWhile Decimal.isDigit) := by
  unfold mantissa
  rw [h]
  rfl

theorem mantissa_of_not_point {cs : List Char}
    (h : ∀ c ∈ (cs.dropWhile Decimal.isDigit).head?, c ∉ ['.']) :
    mantissa cs = (cs.takeWhile Decimal.isDigit, cs.dropWhile Decimal.isDigit) := by
  unfold mantissa
  split
  · rename_i rest hrest
    exact absurd List.mem_cons_self (h '.' (by rw [hrest]; rfl))
  · rfl

/-- What the lexeme of a number is found to be. -/
def numberOutcome (complete : Bool) (lexeme : List Char) : Except Fault Token.Kind :=
  if complete then
    match Decimal.read? false lexeme with
    | some value => .ok (.number value)
    | none => .error (.invalidNumber (String.ofList lexeme))
  else .error .missingExponentDigits

/-- A number is a mantissa and what is taken for its exponent. -/
theorem number_eq {cs front behind back rest : List Char} {complete : Bool}
    (hfront : mantissa cs = (front, behind)) (hback : exponent behind = (back, complete, rest)) :
    number cs = ⟨numberOutcome complete (front ++ back), front ++ back, rest⟩ := by
  unfold number
  simp only [hfront, hback]
  rfl

/-! ## Nothing is lost -/

theorem exponent_append (cs : List Char) : (exponent cs).1 ++ (exponent cs).2.2 = cs := by
  cases cs with
  | nil => rfl
  | cons mark cs =>
    by_cases hmark : mark = 'e' ∨ mark = 'E'
    · rcases exponent_cons hmark cs with ⟨sign, digits, _, hcs, hexponent⟩
      rw [hexponent]
      simp [hcs]
    · simp only [exponent, if_neg hmark, List.nil_append]

theorem mantissa_append (cs : List Char) : (mantissa cs).1 ++ (mantissa cs).2 = cs := by
  have hall := List.takeWhile_append_dropWhile (p := Decimal.isDigit) (l := cs)
  unfold mantissa
  split
  · rename_i rest hrest
    rw [hrest] at hall
    simpa using hall
  · rename_i rest hrest
    exact hall

theorem number_append (cs : List Char) : (number cs).lexeme ++ (number cs).rest = cs := by
  show ((mantissa cs).1 ++ (exponent (mantissa cs).2).1) ++ (exponent (mantissa cs).2).2.2 = cs
  rw [List.append_assoc, exponent_append, mantissa_append]

theorem string_append (cs : List Char) : (string cs).lexeme ++ (string cs).rest = quote :: cs := by
  have hall := List.takeWhile_append_dropWhile (p := (· ≠ quote)) (l := cs)
  unfold string
  split
  · rename_i hnone
    rw [hnone] at hall
    simpa using hall
  · rename_i d rest hrest
    have hquote : d = quote := by
      have hhead := List.head?_dropWhile_not (· ≠ quote) cs
      rw [hrest] at hhead
      simpa using hhead
    rw [hrest, hquote] at hall
    simpa using hall

theorem operator_append (c : Char) (cs : List Char) :
    (operator c cs).lexeme ++ (operator c cs).rest = c :: cs := by
  apply operator_cases (P := fun scan => scan.lexeme ++ scan.rest = c :: cs)
  · rintro d rest rfl _
    rfl
  · intro _
    rfl
  · rfl

/-- The lexeme and the rest make up the text. -/
theorem ofChar_append (c : Char) (cs : List Char) :
    (ofChar c cs).lexeme ++ (ofChar c cs).rest = c :: cs := by
  apply ofChar_cases (P := fun scan => scan.lexeme ++ scan.rest = c :: cs)
  · exact fun _ => number_append (c :: cs)
  · rintro rfl
    exact string_append cs
  · intro _
    simp
  · intro _
    rfl
  · intro _
    rfl
  · intro _
    rfl
  · exact operator_append c cs

/-! ## Kinds -/

theorem isNumeric_of_mem_takeWhile {c : Char} {cs : List Char}
    (h : c ∈ cs.takeWhile Decimal.isDigit) : IsNumeric c :=
  Or.inl (List.mem_takeWhile_imp h)

theorem isNumeric_of_mem_exponent {cs : List Char} : ∀ c ∈ (exponent cs).1, IsNumeric c := by
  intro c hc
  cases cs with
  | nil => cases hc
  | cons mark cs =>
    by_cases hmark : mark = 'e' ∨ mark = 'E'
    · rcases exponent_cons hmark cs with ⟨sign, digits, hsign, _, hexponent⟩
      rw [hexponent] at hc
      rcases List.mem_append.mp hc with hc | hc
      · rcases List.mem_cons.mp hc with rfl | hc
        · rcases hmark with rfl | rfl
          · exact Or.inr (by decide)
          · exact Or.inr (by decide)
        · rcases hsign with rfl | rfl | rfl
          · cases hc
          · rw [List.mem_singleton.mp hc]
            exact Or.inr (by decide)
          · rw [List.mem_singleton.mp hc]
            exact Or.inr (by decide)
      · exact isNumeric_of_mem_takeWhile hc
    · simp [exponent, if_neg hmark] at hc

theorem isNumeric_of_mem_mantissa {cs : List Char} : ∀ c ∈ (mantissa cs).1, IsNumeric c := by
  intro c hc
  unfold mantissa at hc
  split at hc
  · simp only [List.mem_append, List.mem_cons] at hc
    rcases hc with hc | rfl | hc
    · exact isNumeric_of_mem_takeWhile hc
    · exact Or.inr (by decide)
    · exact isNumeric_of_mem_takeWhile hc
  · exact isNumeric_of_mem_takeWhile hc

theorem fits_of_number {cs : List Char} {kind : Token.Kind} (h : (number cs).outcome = .ok kind) :
    kind.Fits (number cs).lexeme := by
  have hchars : ∀ c ∈ (number cs).lexeme, IsNumeric c := by
    intro c hc
    rcases List.mem_append.mp hc with hc | hc
    · exact isNumeric_of_mem_mantissa c hc
    · exact isNumeric_of_mem_exponent c hc
  simp only [number] at h
  split at h
  · split at h
    · rename_i value hvalue
      cases h
      exact ⟨hvalue, hchars⟩
    · cases h
  · cases h

theorem fits_of_string {cs : List Char} {kind : Token.Kind} (h : (string cs).outcome = .ok kind) :
    kind.Fits (string cs).lexeme := by
  unfold string at h ⊢
  split at h
  · cases h
  · cases h
    refine ⟨cs.takeWhile (· ≠ quote), rfl, ?_⟩
    intro hmem
    have hne := List.mem_takeWhile_imp hmem
    simp at hne

theorem fits_of_operator {c : Char} {cs : List Char} {kind : Token.Kind}
    (h : (operator c cs).outcome = .ok kind) : kind.Fits (operator c cs).lexeme := by
  revert h
  apply operator_cases (P := fun scan => scan.outcome = .ok kind → kind.Fits scan.lexeme)
  · rintro d rest _ htwo ⟨⟩
    exact Or.inr ⟨(c, d), htwo, rfl⟩
  · rintro hone ⟨⟩
    exact Or.inl ⟨c, hone, rfl⟩
  · rintro ⟨⟩

/-- A scan that finds a kind finds a lexeme of that kind. -/
theorem fits_of_ofChar {c : Char} {cs : List Char} {kind : Token.Kind}
    (h : (ofChar c cs).outcome = .ok kind) : kind.Fits (ofChar c cs).lexeme := by
  revert h
  apply ofChar_cases (P := fun scan => scan.outcome = .ok kind → kind.Fits scan.lexeme)
  · exact fun _ => fits_of_number
  · rintro rfl
    exact fits_of_string
  · rintro hname ⟨⟩
    exact ⟨c, _, rfl, hname, fun d hd => List.mem_takeWhile_imp hd⟩
  · rintro hopen ⟨⟩
    rcases hopen with rfl | rfl
    · exact Or.inl rfl
    · exact Or.inr rfl
  · rintro hclose ⟨⟩
    rcases hclose with rfl | rfl
    · exact Or.inl rfl
    · exact Or.inr rfl
  · rintro rfl ⟨⟩
    rfl
  · exact fits_of_operator

/-! ## Faults -/

/-- What a scan at `c` may find fault with. -/
def FaultsAt (c : Char) : Fault → List Char → Prop
  | .missingExponentDigits, _ => True
  | .invalidNumber _, _ => True
  | .unterminatedString, _ => True
  | .unexpectedCharacter d, lexeme => d = c ∧ lexeme = []
  | _, _ => False

theorem faultsAt_of_operator {c : Char} {cs : List Char} {fault : Fault}
    (h : (operator c cs).outcome = .error fault) : FaultsAt c fault (operator c cs).lexeme := by
  revert h
  apply operator_cases (P := fun scan => scan.outcome = .error fault → FaultsAt c fault scan.lexeme)
  · rintro d rest _ _ ⟨⟩
  · rintro _ ⟨⟩
  · rintro ⟨⟩
    exact ⟨rfl, rfl⟩

/-- A scan finds fault with a number, a string or the character it begins at. -/
theorem faultsAt_of_ofChar {c : Char} {cs : List Char} {fault : Fault}
    (h : (ofChar c cs).outcome = .error fault) : FaultsAt c fault (ofChar c cs).lexeme := by
  revert h
  apply ofChar_cases (P := fun scan => scan.outcome = .error fault → FaultsAt c fault scan.lexeme)
  · intro _ h
    simp only [number] at h
    split at h
    · split at h
      · cases h
      · cases h
        exact trivial
    · cases h
      exact trivial
  · intro _ h
    unfold string at h
    split at h
    · cases h
      exact trivial
    · cases h
  · rintro _ ⟨⟩
  · rintro _ ⟨⟩
  · rintro _ ⟨⟩
  · rintro _ ⟨⟩
  · exact faultsAt_of_operator

end Scan

end Formula
