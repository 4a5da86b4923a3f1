import Formula.Proofs.Decimal.Layout
import Formula.Proofs.Json.Format
import Formula.Proofs.Token.Lexeme

/-! # A package that meets the assumptions

It prints compactly, numbers with the fewest digits that read back, and parses the part of JSON that is
assumed of a package and no more. What it parses is found by reading from the front: the text that
spells a document is taken whole wherever it ends, since what follows is no part of a number.
-/

namespace Formula.Json

namespace Document

mutual

/-- What is said of a value. -/
def ofValue : Value → Document
  | .number x => .number x
  | .bool b => .bool b
  | .text s => .text s
  | .array items => .array (ofValues items)

/-- What is said of the values. -/
def ofValues : List Value → List Document
  | [] => []
  | value :: values => ofValue value :: ofValues values

end

mutual

/-- The value that is said. -/
def toValue : Document → Value
  | .number x => .number x
  | .bool b => .bool b
  | .text s => .text s
  | .array items => .array (toValues items)

/-- The values that are said. -/
def toValues : List Document → List Value
  | [] => []
  | document :: documents => toValue document :: toValues documents

end

/-- Numbers are written with a point, and with an exponent if it is not one from minus five to fifteen. -/
def layout : Decimal.Layout where
  tie := .even
  positional := some (-5, 15)
  wholeTail := ".0"
  nan := "null"
  infinity := "null"
  negativeInfinity := "null"

mutual

/-- The text of a document. -/
def print : Document → String
  | .number x => layout.write x
  | .bool b => if b then "true" else "false"
  | .text s => String.ofList ('\x22' :: s.toList.flatMap escape ++ ['\x22'])
  | .array items => "[" ++ ",".intercalate (printAll items) ++ "]"

/-- The texts of the documents. -/
def printAll : List Document → List String
  | [] => []
  | document :: documents => print document :: printAll documents

end

end Document

/-! ## Reading -/

/-- What is read at the head of a text, and the rest. -/
abbrev Reader (α : Type) := List Char → Option (α × List Char)

/-- A character behind a backslash. -/
def readEscape : Reader Char
  | 'u' :: d₁ :: d₂ :: d₃ :: d₄ :: rest =>
    (Text.hexNumber? [d₁, d₂, d₃, d₄]).map fun n => (Char.ofNat n, rest)
  | letter :: rest => (escapes.lookup letter).map (·, rest)
  | [] => none

/-- The characters of a string and the quote behind them, in as many steps. -/
def readChars : (steps : Nat) → Reader (List Char)
  | 0, _ => none
  | _ + 1, [] => none
  | steps + 1, c :: rest =>
    if c = '\x22' then some ([], rest)
    else if c = '\\' then
      (readEscape rest).bind fun (c, rest) =>
        (readChars steps rest).map fun (chars, rest) => (c :: chars, rest)
    else if c.toNat < 0x20 then none
    else (readChars steps rest).map fun (chars, rest) => (c :: chars, rest)

/-- The elements of an array and the bracket behind them, in as many steps. -/
def readItems (item : Reader Document) : (steps : Nat) → Reader (List Document)
  | 0, _ => none
  | steps + 1, cs =>
    (item cs).bind fun (document, rest) =>
      match rest with
      | ',' :: rest =>
        (readItems item steps rest).map fun (documents, rest) => (document :: documents, rest)
      | ']' :: rest => some ([document], rest)
      | _ => none

instance : DecidablePred Scan.IsNumeric := fun c =>
  inferInstanceAs (Decidable (Decimal.isDigit c = true ∨ c ∈ ['.', 'e', 'E', '+', '-']))

/-- A number as far as its characters go. -/
def readNumber : Reader Document := fun cs =>
  (Decimal.ofText? (String.ofList (cs.takeWhile (Scan.IsNumeric ·)))).map fun x =>
    (.number x, cs.dropWhile (Scan.IsNumeric ·))

/-- A document with arrays less than `depth` deep in one another. -/
def readDocument : (depth : Nat) → Reader Document
  | 0, _ => none
  | _ + 1, [] => none
  | depth + 1, c :: rest =>
    if c = '\x22' then
      (readChars (rest.length + 1) rest).map fun (chars, rest) =>
        (.text (String.ofList chars), rest)
    else if c = '[' then
      if depth = 0 then none
      else if rest.head? = some ']' then some (.array [], rest.tail)
      else (readItems (readDocument depth) (rest.length + 1) rest).map fun (items, rest) =>
        (.array items, rest)
    else if c = 't' then
      if rest.take 3 = "rue".toList then some (.bool true, rest.drop 3) else none
    else if c = 'f' then
      if rest.take 4 = "alse".toList then some (.bool false, rest.drop 4) else none
    else readNumber (c :: rest)

/-- The document of a text. -/
def parse (text : String) : Option Document :=
  match readDocument 128 text.toList with
  | some (document, []) => some document
  | _ => none

/-- Prints and parses what it is assumed to, and no more. -/
def compact : Package where
  serialize := Document.ofValue
  print := Document.print
  parse := parse
  deserialize document := some document.toValue

/-! ## Types without a tag -/

theorem ofValues_eq_map (values : List Value) :
    Document.ofValues values = values.map Document.ofValue := by
  induction values with
  | nil => rfl
  | cons value values ih => rw [Document.ofValues, ih, List.map_cons]

theorem mapM_toValue (documents : List Document) :
    (documents.mapM fun document => some document.toValue) = some (Document.toValues documents) := by
  induction documents with
  | nil => rfl
  | cons document documents ih =>
    rw [List.mapM_cons, ih]
    rfl

theorem isUntagged_compact : compact.IsUntagged where
  serialize value := by
    cases value with
    | array items => exact congrArg Document.array (ofValues_eq_map items)
    | number x | bool b | text s => rfl
  deserialize document := by
    cases document with
    | array items =>
      rw [Package.findSome?_variants_array]
      exact (congrArg (Option.map Value.array) (mapM_toValue items)).symm
    | number x | bool b | text s => rfl

/-! ## Printing -/

theorem printAll_eq_map (documents : List Document) :
    Document.printAll documents = documents.map Document.print := by
  induction documents with
  | nil => rfl
  | cons document documents ih => rw [Document.printAll, ih, List.map_cons]

theorem isCompact_compact : compact.IsCompact where
  number x hfinite := by
    have htail : ∀ c ∈ Document.layout.wholeTail.toList, Scan.IsNumeric c :=
      List.forall_mem_cons.mpr ⟨by decide, List.forall_mem_singleton.mpr (by decide)⟩
    obtain ⟨negative, cs, hnumeral, hwrite⟩ := Decimal.Layout.write_of_isFinite htail hfinite
    show ∀ c ∈ (Document.layout.write x).toList, Scan.IsNumeric c
    rw [hwrite]
    cases negative with
    | true => exact List.forall_mem_cons.mpr ⟨by decide, hnumeral.all⟩
    | false => exact hnumeral.all
  bool b := rfl
  text s := String.toList_ofList
  array items := by
    show "[" ++ ",".intercalate (Document.printAll items) ++ "]" = _
    rw [printAll_eq_map]
    rfl

/-! ## Parsing -/

variable {c : Char} {cs chars front r : List Char}

theorem readEscape_of_lookup {letter : Char} (h : escapes.lookup letter = some c) (r : List Char) :
    readEscape (letter :: r) = some (c, r) := by
  unfold readEscape
  split
  · rename_i heq
    cases heq
    cases h
  · rename_i heq
    cases heq
    rw [h]
    rfl
  · rename_i heq
    cases heq

/-- One step takes one character of a string. -/
theorem readChars_of_spellsChar (h : SpellsChar c front) {steps : Nat}
    (hread : readChars steps cs = some (chars, r)) :
    readChars (steps + 1) (front ++ cs) = some (c :: chars, r) := by
  cases h with
  | plain hquote hbackslash hcontrol =>
    rw [List.singleton_append, readChars, if_neg hquote, if_neg hbackslash, if_neg hcontrol, hread]
    rfl
  | escaped h =>
    have hescape := readEscape_of_lookup h cs
    simp [readChars, hescape, hread]
  | code h =>
    simp [readChars, readEscape, h, hread]

theorem readChars_of_spellsChars (h : SpellsChars chars cs) (r : List Char) {steps : Nat}
    (hsteps : chars.length < steps) : readChars steps (cs ++ '\x22' :: r) = some (chars, r) := by
  induction h generalizing steps with
  | nil =>
    obtain ⟨steps, rfl⟩ := Nat.exists_eq_add_one_of_ne_zero (Nat.ne_of_gt hsteps)
    rfl
  | cons hc _ ih =>
    obtain ⟨steps, rfl⟩ := Nat.exists_eq_add_one_of_ne_zero (Nat.ne_of_gt (Nat.zero_lt_of_lt hsteps))
    rw [List.append_assoc]
    exact readChars_of_spellsChar hc (ih (Nat.lt_of_succ_lt_succ hsteps))

theorem length_le_of_spellsChars (h : SpellsChars chars cs) : chars.length ≤ cs.length := by
  induction h with
  | nil => exact Nat.le_refl 0
  | @cons c chars front behind hc _ ih =>
    have hone : 1 ≤ front.length := by
      cases hc with
      | plain _ _ _ | escaped _ | code _ => exact Nat.succ_pos _
    rw [List.length_cons, List.length_append]
    omega

/-- What follows a number in a document is no part of it. -/
def Stops (cs : List Char) : Prop :=
  ∀ c ∈ cs.head?, ¬ Scan.IsNumeric c

theorem readNumber_append (hchars : ∀ c ∈ cs, Scan.IsNumeric c) (hr : Stops r) :
    readNumber (cs ++ r) =
      (Decimal.ofText? (String.ofList cs)).map fun x => (.number x, r) := by
  have hrun : ∀ c ∈ cs, decide (Scan.IsNumeric c) = true := fun c hc => decide_eq_true (hchars c hc)
  have hstop : ∀ c ∈ r.head?, decide (Scan.IsNumeric c) = false := fun c hc =>
    decide_eq_false (hr c hc)
  rw [readNumber, takeWhile_of_run hrun hstop, dropWhile_of_run hrun hstop]

theorem readDocument_of_isNumeric (h : Scan.IsNumeric c) (depth : Nat) (r : List Char) :
    readDocument (depth + 1) (c :: r) = readNumber (c :: r) := by
  have hne : ∀ d, ¬ Scan.IsNumeric d → c ≠ d := fun d hd heq => hd (heq ▸ h)
  rw [readDocument, if_neg (hne _ (by decide)), if_neg (hne _ (by decide)),
    if_neg (hne _ (by decide)), if_neg (hne _ (by decide))]

/-- A number that is parsed on its own is read as the same number wherever it ends. -/
theorem readDocument_number {x : Float} (hchars : ∀ c ∈ cs, Scan.IsNumeric c)
    (halone : parse (String.ofList cs) = some (.number x)) (depth : Nat) (hr : Stops r) :
    readDocument (depth + 1) (cs ++ r) = some (.number x, r) := by
  cases cs with
  | nil => cases halone
  | cons c cs =>
    have hc := hchars c List.mem_cons_self
    have hnil : Stops [] := fun c hc => by cases hc
    have hread := readNumber_append hchars hnil
    rw [List.append_nil] at hread
    rw [parse, String.toList_ofList, readDocument_of_isNumeric hc, hread] at halone
    cases hvalue : Decimal.ofText? (String.ofList (c :: cs)) with
    | none =>
      rw [hvalue] at halone
      cases halone
    | some y =>
      rw [hvalue] at halone
      cases halone
      rw [List.cons_append, readDocument_of_isNumeric hc, ← List.cons_append,
        readNumber_append hchars hr, hvalue]
      rfl

/-- The text of a document is read as that wherever it ends. -/
def Reads (item : Reader Document) (document : Document) (cs : List Char) : Prop :=
  ∀ r, Stops r → item (cs ++ r) = some (document, r)

theorem stops_of_head (h : ¬ Scan.IsNumeric c) (cs : List Char) : Stops (c :: cs) := by
  intro d hd
  cases hd
  exact h

theorem length_le_intercalate (pieces : List (List Char)) :
    pieces.length ≤ ([','].intercalate pieces).length + 1 := by
  induction pieces with
  | nil => exact Nat.zero_le _
  | cons piece pieces ih =>
    cases pieces with
    | nil => exact Nat.succ_le_succ (Nat.zero_le _)
    | cons next pieces =>
      rw [List.intercalate_cons_cons, List.length_append, List.length_append, List.length_cons]
      simp only [List.length_singleton]
      omega

/-- Elements with commas between them are read one by one. -/
theorem readItems_of_reads {item : Reader Document} {items : List Document}
    {pieces : List (List Char)} (h : List.Forall₂ (Reads item) items pieces) (hne : items ≠ [])
    {steps : Nat} (hsteps : items.length ≤ steps) (r : List Char) :
    readItems item steps ([','].intercalate pieces ++ ']' :: r) = some (items, r) := by
  induction h generalizing steps with
  | nil => exact absurd rfl hne
  | @cons document piece items pieces hitem hitems ih =>
    obtain ⟨steps, rfl⟩ := Nat.exists_eq_add_one_of_ne_zero
      (Nat.ne_of_gt (Nat.lt_of_lt_of_le (Nat.succ_pos _) hsteps))
    cases hitems with
    | nil =>
      have hread := hitem (']' :: r) (stops_of_head (by decide) r)
      rw [List.intercalate_singleton, readItems, hread]
      rfl
    | @cons next piece' items pieces hnext hrest =>
      have hbehind := ih (List.cons_ne_nil _ _) (Nat.le_of_succ_le_succ hsteps)
      have hread := hitem (',' :: ([','].intercalate (piece' :: pieces) ++ ']' :: r))
        (stops_of_head (by decide) _)
      rw [List.intercalate_cons_cons, List.append_assoc, List.append_assoc, List.singleton_append,
        readItems, hread]
      simp only [Option.bind_some, hbehind, Option.map_some]

/-- No document begins like the end of an array. -/
theorem head?_ne_of_spells {document : Document} (h : compact.Spells document cs) (r : List Char) :
    (cs ++ r).head? ≠ some ']' := by
  cases h with
  | number hchars halone =>
    cases cs with
    | nil => cases halone
    | cons c cs =>
      intro hhead
      cases hhead
      exact absurd (hchars ']' List.mem_cons_self) (by decide)
  | true | false | text h | array h => exact fun hhead => by cases hhead

theorem head?_intercalate_ne {items : List Document} {pieces : List (List Char)}
    (h : List.Forall₂ compact.Spells items pieces) (hne : items ≠ []) (r : List Char) :
    ([','].intercalate pieces ++ r).head? ≠ some ']' := by
  cases h with
  | nil => exact absurd rfl hne
  | @cons _ piece _ pieces hitem _ =>
    cases pieces with
    | nil =>
      rw [List.intercalate_singleton]
      exact head?_ne_of_spells hitem r
    | cons next pieces =>
      rw [List.intercalate_cons_cons, List.append_assoc, List.append_assoc]
      exact head?_ne_of_spells hitem _

theorem readDocument_quote (depth : Nat) (cs : List Char) :
    readDocument (depth + 1) ('\x22' :: cs) =
      (readChars (cs.length + 1) cs).map fun (chars, rest) => (.text (String.ofList chars), rest) :=
  rfl

theorem readDocument_bracket (depth : Nat) (cs : List Char) :
    readDocument (depth + 1 + 1) ('[' :: cs) =
      if cs.head? = some ']' then some (.array [], cs.tail)
      else (readItems (readDocument (depth + 1)) (cs.length + 1) cs).map fun (items, rest) =>
        (.array items, rest) :=
  rfl

theorem reads_text {s : String} (h : SpellsChars s.toList cs) (depth : Nat) :
    Reads (readDocument (depth + 1)) (.text s) ('\x22' :: cs ++ ['\x22']) := by
  intro r _
  have hlength := length_le_of_spellsChars h
  rw [List.cons_append, List.cons_append, readDocument_quote, List.append_assoc,
    List.singleton_append, readChars_of_spellsChars h]
  · simp only [Option.map_some, String.ofList_toList]
  · rw [List.length_append]
    omega

theorem reads_array {items : List Document} {pieces : List (List Char)} {depth : Nat}
    (h : List.Forall₂ compact.Spells items pieces)
    (hitems : List.Forall₂ (Reads (readDocument (depth + 1))) items pieces) :
    Reads (readDocument (depth + 1 + 1)) (.array items)
      ('[' :: [','].intercalate pieces ++ [']']) := by
  intro r _
  rw [List.cons_append, List.cons_append, readDocument_bracket, List.append_assoc,
    List.singleton_append]
  by_cases hne : items = []
  · subst hne
    cases h
    rfl
  have hlength := h.length_eq
  have hpieces := length_le_intercalate pieces
  rw [if_neg (head?_intercalate_ne h hne _), readItems_of_reads hitems hne]
  · rfl
  · rw [List.length_append, List.length_cons]
    omega

/-- A document is read wherever it ends, at any depth that leaves room for its arrays. -/
theorem reads_of_spells {document : Document} (h : compact.Spells document cs) {depth : Nat}
    (hdepth : document.nesting ≤ depth) : Reads (readDocument (depth + 1)) document cs := by
  induction document using Document.induct generalizing cs depth with
  | number x =>
    cases h with
    | number hchars halone => exact fun r hr => readDocument_number hchars halone depth hr
  | bool b =>
    cases h with
    | true | false => exact fun r _ => rfl
  | text s =>
    cases h with
    | text h => exact reads_text h depth
  | array items ih =>
    cases h with
    | @array _ pieces h =>
      -- the brackets take one level, and what is left of the depth is enough for each element
      obtain ⟨depth, rfl⟩ : ∃ inner, depth = inner + 1 :=
        Nat.exists_eq_add_one_of_ne_zero (Nat.ne_of_gt (Nat.lt_of_lt_of_le (Nat.succ_pos _) hdepth))
      have hitem : ∀ item ∈ items, ∀ piece, compact.Spells item piece →
          Reads (readDocument (depth + 1)) item piece := fun item hmem piece hspells =>
        ih item hmem hspells
          (Nat.le_trans (Document.nesting_le_of_mem hmem) (Nat.le_of_succ_le_succ hdepth))
      exact reads_array h <|
        ((List.forall₂_and_left _ _).mpr ⟨hitem, h⟩).imp fun _ piece hboth => hboth.1 piece hboth.2

theorem isComplete_compact : compact.IsComplete := by
  intro document cs h hdepth
  have hnil : Stops [] := fun c hc => by cases hc
  have hread := reads_of_spells h hdepth [] hnil
  rw [List.append_nil] at hread
  show parse (String.ofList cs) = some document
  rw [parse, String.toList_ofList, hread]

end Formula.Json
