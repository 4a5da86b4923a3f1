import Formula.Proofs.Json.Compact
import Formula.Proofs.Source

/-! # Values read back from JSON

The JSON of a value spells the value's content, so it is parsed to that; and of the types that are tried
in turn, the first that fits the content of a value is the type of the value.
-/

namespace Formula

namespace Value

/-- What holds of an array if it holds of its elements, and of all other values, holds of all values. -/
theorem induct {P : Value → Prop} (number : ∀ x, P (.number x)) (bool : ∀ b, P (.bool b))
    (text : ∀ s, P (.text s)) (array : ∀ items, (∀ value ∈ items, P value) → P (.array items))
    (value : Value) : P value :=
  @Value.rec P (fun items => ∀ value ∈ items, P value) number bool text array
    (fun _ h => absurd h List.not_mem_nil)
    (fun _ _ hhead htail => List.forall_mem_cons.mpr ⟨hhead, htail⟩) value

mutual

/-- The numbers in a value, those in its elements included. -/
def numbers : Value → List Float
  | .number x => [x]
  | .bool _ | .text _ => []
  | .array items => numbersAll items

/-- The numbers in the values. -/
def numbersAll : List Value → List Float
  | [] => []
  | value :: values => value.numbers ++ numbersAll values

end

theorem numbers_subset_of_mem {value : Value} {items : List Value} (h : value ∈ items) :
    value.numbers ⊆ numbersAll items := by
  induction items with
  | nil => cases h
  | cons item items ih =>
    rw [numbersAll]
    rcases List.mem_cons.mp h with rfl | hmem
    · exact List.subset_append_left _ _
    · exact List.Subset.trans (ih hmem) (List.subset_append_right _ _)

end Value

namespace Json

/-! ## Strings -/

/-- A control character has a code of two zeros and two digits. -/
theorem hexNumber?_of_lt {n : Nat} (h : n < 0x20) :
    Text.hexNumber? ['0', '0', Nat.digitChar (n / 16), Nat.digitChar (n % 16)] = some n := by
  revert n
  decide

/-- However a character is printed, it is spelled so. -/
theorem spellsChar_escape (c : Char) : SpellsChar c (escape c) := by
  unfold escape
  by_cases hquote : c = '\x22'
  · rw [if_pos hquote]
    exact .escaped (by rw [hquote]; rfl)
  rw [if_neg hquote]
  by_cases hbackslash : c = '\\'
  · rw [if_pos hbackslash]
    exact .escaped (by rw [hbackslash]; rfl)
  rw [if_neg hbackslash]
  by_cases hbackspace : c = '\x08'
  · rw [if_pos hbackspace]
    exact .escaped (by rw [hbackspace]; rfl)
  rw [if_neg hbackspace]
  by_cases hfeed : c = '\x0C'
  · rw [if_pos hfeed]
    exact .escaped (by rw [hfeed]; rfl)
  rw [if_neg hfeed]
  by_cases hline : c = '\n'
  · rw [if_pos hline]
    exact .escaped (by rw [hline]; rfl)
  rw [if_neg hline]
  by_cases hreturn : c = '\r'
  · rw [if_pos hreturn]
    exact .escaped (by rw [hreturn]; rfl)
  rw [if_neg hreturn]
  by_cases htab : c = '\t'
  · rw [if_pos htab]
    exact .escaped (by rw [htab]; rfl)
  rw [if_neg htab]
  by_cases hcontrol : c.toNat < 0x20
  · rw [if_pos hcontrol]
    exact .code (hexNumber?_of_lt hcontrol)
  rw [if_neg hcontrol]
  exact .plain hquote hbackslash hcontrol

theorem spellsChars_flatMap_escape (chars : List Char) :
    SpellsChars chars (chars.flatMap escape) := by
  induction chars with
  | nil => exact .nil
  | cons c chars ih => exact .cons (spellsChar_escape c) ih

namespace Package

variable {json : Package}

/-! ## Types without a tag -/

section Untagged

variable (huntagged : json.IsUntagged)

include huntagged

theorem nesting_serialize (value : Value) : (json.serialize value).nesting = value.nesting := by
  induction value using Value.induct with
  | number x | bool b | text s => rw [huntagged.serialize]; rfl
  | array items ih =>
    have hitems : Document.nestingAll (items.map json.serialize) = Value.nestingAll items := by
      induction items with
      | nil => rfl
      | cons item items ih' =>
        obtain ⟨hitem, hrest⟩ := List.forall_mem_cons.mp ih
        rw [List.map_cons, Document.nestingAll, Value.nestingAll, hitem, ih' hrest]
    rw [huntagged.serialize, Value.content, Document.nesting, Value.nesting, hitems]

/-- The content of a value fits the type of the value, and none that is tried before. -/
theorem deserialize_serialize (value : Value) :
    json.deserialize (json.serialize value) = some value := by
  induction value using Value.induct with
  | number x | bool b | text s =>
    rw [huntagged.serialize, huntagged.deserialize]
    rfl
  | array items ih =>
    have hitems : (items.map json.serialize).mapM json.deserialize = some items := by
      induction items with
      | nil => rfl
      | cons item items ih' =>
        obtain ⟨hitem, hrest⟩ := List.forall_mem_cons.mp ih
        rw [List.map_cons, List.mapM_cons, hitem, ih' hrest]
        rfl
    rw [huntagged.serialize, huntagged.deserialize, Value.content, findSome?_variants_array, hitems]
    rfl

/-- Only a document that is a number is read as that number. -/
theorem eq_number_of_deserialize {document : Document} {x : Float}
    (h : json.deserialize document = some (.number x)) : document = .number x := by
  rw [huntagged.deserialize] at h
  cases document with
  | number y =>
    cases h
    rfl
  | bool b => cases h
  | text s => cases h
  | array items =>
    rw [findSome?_variants_array, Option.map_eq_some_iff] at h
    obtain ⟨values, -, hvalues⟩ := h
    cases hvalues

/-- A number that is read back is parsed as itself. -/
theorem parse_print_number {x : Float} (h : json.read (json.write (.number x)) = some (.number x)) :
    json.parse (json.print (.number x)) = some (.number x) := by
  have hserialize : json.serialize (.number x) = .number x := huntagged.serialize (.number x)
  rw [read, write, hserialize, Option.bind_eq_some_iff] at h
  obtain ⟨document, hparse, hvalue⟩ := h
  rw [hparse, eq_number_of_deserialize huntagged hvalue]

end Untagged

/-! ## The round trip -/

theorem toList_print_array (hcompact : json.IsCompact) (items : List Document) :
    (json.print (.array items)).toList =
      '[' :: [','].intercalate (items.map fun item => (json.print item).toList) ++ [']'] := by
  rw [hcompact.array]
  simp [String.toList_intercalate, Function.comp_def]

/-- The JSON of a value spells its content, if its numbers are read back one by one. -/
theorem spells_print (huntagged : json.IsUntagged) (hcompact : json.IsCompact) (value : Value)
    (hnumbers : ∀ x ∈ value.numbers, Number.isFinite x = true ∧
      json.read (json.write (.number x)) = some (.number x)) :
    json.Spells (json.serialize value) (json.print (json.serialize value)).toList := by
  induction value using Value.induct with
  | number x =>
    obtain ⟨hfinite, hread⟩ := hnumbers x (List.mem_singleton_self x)
    rw [huntagged.serialize]
    refine .number (hcompact.number x hfinite) ?_
    rw [String.ofList_toList]
    exact parse_print_number huntagged hread
  | bool b =>
    rw [huntagged.serialize, Value.content, hcompact.bool]
    cases b with
    | true => exact .true
    | false => exact .false
  | text s =>
    rw [huntagged.serialize, Value.content, hcompact.text]
    exact .text (spellsChars_flatMap_escape s.toList)
  | array items ih =>
    have hitems : List.Forall₂ json.Spells (items.map json.serialize)
        ((items.map json.serialize).map fun item => (json.print item).toList) := by
      rw [List.map_map, List.forall₂_map_right_iff, List.forall₂_map_left_iff, List.forall₂_same]
      exact fun value hvalue => ih value hvalue fun x hx =>
        hnumbers x (Value.numbers_subset_of_mem hvalue hx)
    rw [huntagged.serialize, Value.content, toList_print_array hcompact]
    exact .array hitems

/-- A value whose arrays stand at most 127 deep in one another, and whose numbers read back one by one,
is what its JSON reads back to. -/
theorem read_write (huntagged : json.IsUntagged) (hcompact : json.IsCompact)
    (hcomplete : json.IsComplete) {value : Value} (hdepth : value.nesting ≤ 127)
    (hnumbers : ∀ x ∈ value.numbers, Number.isFinite x = true ∧
      json.read (json.write (.number x)) = some (.number x)) :
    json.read (json.write value) = some value := by
  have hnesting : (json.serialize value).nesting ≤ 127 := by
    rwa [nesting_serialize huntagged]
  have hparse := hcomplete _ _ (spells_print huntagged hcompact value hnumbers) hnesting
  rw [String.ofList_toList] at hparse
  rw [read, write, hparse, Option.bind_some, deserialize_serialize huntagged]

end Package

/-- An empty array, a text of which all characters but one are escaped, and a number in an array. -/
def mixedValue : Value :=
  .array [.array [], .text "\"\\\n\u0001é", .array [.number (Number.ofRatio true 1 10), .bool false]]

theorem Package.read_write_mixed :
    compact.IsUntagged ∧ compact.IsCompact ∧ compact.IsComplete ∧ mixedValue.nesting ≤ 127 ∧
      (∀ x ∈ mixedValue.numbers, Number.isFinite x = true ∧
        compact.read (compact.write (.number x)) = some (.number x)) ∧
      compact.write mixedValue = "[[],\"\\\"\\\\\\n\\u0001é\",[-0.1,false]]" ∧
      compact.read (compact.write mixedValue) = some mixedValue := by
  have hdepth : mixedValue.nesting ≤ 127 := by decide
  have hnumbers : ∀ x ∈ mixedValue.numbers, Number.isFinite x = true ∧
      compact.read (compact.write (.number x)) = some (.number x) := by
    decide +kernel
  exact ⟨isUntagged_compact, isCompact_compact, isComplete_compact, hdepth, hnumbers,
    by decide +kernel,
    read_write isUntagged_compact isCompact_compact isComplete_compact hdepth hnumbers⟩

end Json

end Formula
