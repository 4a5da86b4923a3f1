import Formula.Proofs.Source

/-! # Texts inside brackets

A text between brackets is an array of one element, which is evaluated one group deeper and has its
errors one character further to the right. So many pairs of brackets wrap its value as many times, as
long as there is room for their arrays; the first bracket for which there is none is where the
evaluation fails.
-/

namespace Formula

/-- The text between as many pairs of brackets. -/
def bracketed (pairs : Nat) (text : String) : String :=
  String.ofList (List.replicate pairs '[' ++ text.toList ++ List.replicate pairs ']')

/-- The value inside as many arrays of one element. -/
def Value.wrapped : (arrays : Nat) → Value → Value
  | 0, value => value
  | arrays + 1, value => .array [value.wrapped arrays]

section Bracketed

variable {pairs : Nat} {text : String}

theorem bracketed_zero (text : String) : bracketed 0 text = text := by
  simp [bracketed]

theorem bracketed_succ (pairs : Nat) (text : String) :
    bracketed (pairs + 1) text = "[" ++ bracketed pairs text ++ "]" := by
  apply String.toList_injective
  simp only [bracketed, String.toList_ofList, String.toList_append]
  rw [List.replicate_succ, List.replicate_succ']
  simp

theorem bracketed_ne_empty (h : text ≠ "" ∨ 0 < pairs) : bracketed pairs text ≠ "" := by
  cases pairs with
  | zero =>
    rw [bracketed_zero]
    exact h.resolve_right (Nat.lt_irrefl 0)
  | succ pairs =>
    rw [bracketed_succ]
    intro hempty
    have hlist := congrArg String.toList hempty
    simp at hlist

/-- A text without delimiters is a piece of an array, between whatever brackets. -/
theorem isPiece_bracketed_of_plain (hplain : ∀ c ∈ text.toList, Nesting.Plain c) (pairs : Nat) :
    Segment.IsPiece '[' (bracketed pairs text).toList := by
  induction pairs with
  | zero =>
    rw [bracketed_zero]
    exact Segment.isPiece_of_plain hplain
  | succ pairs ih =>
    have hpieces : ∀ piece ∈ [(bracketed pairs text).toList], Segment.IsPiece '[' piece := by
      simpa using ih
    rw [bracketed_succ]
    simpa using Segment.isPiece_bracketed hpieces

end Bracketed

/-! ## Parsing -/

namespace Parser

variable {names : Names} {depth : Nat} {text : String} {s : State} {e : Error}

/-- A text whose first operand fails within every budget is not parsed. -/
theorem parse_of_operand_error (hdepth : depth < nestingLimit) (hs : s.From (Cursor.ofText text))
    (h : ∀ inside below,
      operandOver ⟨names, depth, text.length + 1⟩ inside below s = .error e) :
    names.parse depth text = .error e := by
  obtain ⟨budget, hbudget⟩ : ∃ budget, nestingLimit - depth = budget + 1 :=
    ⟨nestingLimit - depth - 1, by omega⟩
  obtain ⟨below, hstage⟩ := operand_stage ⟨names, depth, text.length + 1⟩ budget
  have hoperand : (stage ⟨names, depth, text.length + 1⟩ budget).operand s = .error e := by
    rw [hstage]
    exact h _ below
  have hwhole : whole ⟨names, depth, text.length + 1⟩ (budget + 1) s = .error e :=
    bind_of_error (bind_of_error hoperand)
  rw [parse_eq_map_whole hs, hbudget, hwhole]
  rfl

/-- Where no more groups may stand, a bracket at the head of a text is refused. -/
theorem parse_of_bracket {rest : List Char} (hfull : groupLimit ≤ depth)
    (hdepth : depth < nestingLimit) (htext : text.toList = '[' :: rest) :
    names.parse depth text = .error (.positioned (.tooManyGroups groupLimit) 0 1) := by
  have hs : State.From ⟨some ⟨.opening, "[", 0, 1⟩, ⟨rest, 1⟩⟩ (Cursor.ofText text) := by
    rw [State.From, Cursor.ofText, htext]
    rfl
  refine parse_of_operand_error hdepth hs ?_
  intro inside below
  have hgroup : group ⟨names, depth, text.length + 1⟩ '[' 0
      ⟨some ⟨.opening, "[", 0, 1⟩, ⟨rest, 1⟩⟩ =
        .error (.positioned (.tooManyGroups groupLimit) 0 1) := if_pos hfull
  show (Tree.array <$> group _ '[' 0) _ = _
  rw [map_eq_pure_bind, bind_of_error hgroup]

/-- A text of blanks holds no expression: it ends where one is wanted. -/
theorem parse_of_blank (hdepth : depth < nestingLimit)
    (hblank : ∀ c ∈ text.toList, Text.isBlank c = true) :
    names.parse depth text = .error (.positioned (.endOfText .expression) text.length 0) := by
  have hs : State.From ⟨none, ⟨[], 0 + text.toList.length⟩⟩ (Cursor.ofText text) :=
    Cursor.next_of_blank hblank 0
  rw [Nat.zero_add, String.length_toList] at hs
  exact parse_of_operand_error hdepth hs fun _ _ => rfl

end Parser

/-! ## Evaluating -/

theorem Recorded.shifted_none {σ α : Type} (x : Recorded σ α) : x.shifted 0 = x := by
  funext r
  unfold shifted
  rcases x r with ⟨outcome, r'⟩
  cases outcome with
  | error e => simp [Except.mapError]
  | ok a => rfl

theorem Recorded.shifted_map {σ α β : Type} (distance : Nat) (f : α → β) (x : Recorded σ α) :
    (f <$> x).shifted distance = f <$> x.shifted distance := by
  rw [map_eq_pure_bind, map_eq_pure_bind, shifted_bind]
  rfl

theorem Recorded.shifted_shifted {σ α : Type} (distance distance' : Nat) (x : Recorded σ α) :
    (x.shifted distance).shifted distance' = x.shifted (distance + distance') := by
  funext r
  unfold shifted
  rcases x r with ⟨outcome, r'⟩
  cases outcome with
  | error e => simp [Except.mapError]
  | ok a => rfl

namespace Scope

variable {scope : Scope} {id : Option Int} {text : String}

/-- A group of one piece has one value, which is that of the piece one group deeper. -/
theorem evaluateGroup_of_piece {opening : Char} (hne : text ≠ "")
    (hpiece : Segment.IsPiece opening text.toList) (offset : Nat) :
    scope.evaluateGroup id ⟨text, offset⟩ =
      (fun value => [value]) <$> (scope.nested.evaluateText text id).shifted offset := by
  have hpieces : ∀ piece ∈ [text], Segment.IsPiece opening piece.toList := by simpa using hpiece
  have hjoined : ",".intercalate [text] = text := by simp
  have hall : Segment.all text = [⟨text, 0⟩] := by
    have hsegments := Segment.all_intercalate (hjoined.symm ▸ hne) hpieces
    rw [hjoined] at hsegments
    rw [hsegments]
    simp [Segment.place]
  rw [evaluateGroup_eq]
  show (evaluateSegments _ id (Segment.all text)).shifted offset = _
  rw [hall, evaluateSegments, Recorded.shifted_none]
  show ((scope.nested.evaluateText text id) >>= fun value => pure [value]).shifted offset = _
  rw [← map_eq_pure_bind, Recorded.shifted_map]

/-- A text between brackets comes to an array of what it comes to one group deeper. -/
theorem evaluateText_bracket (hroom : scope.depth < groupLimit) (hne : text ≠ "")
    (hpiece : Segment.IsPiece '[' text.toList) :
    scope.evaluateText ("[" ++ text ++ "]") id =
      (fun value => .array [value]) <$> (scope.nested.evaluateText text id).shifted 1 := by
  have hpieces : ∀ piece ∈ [text], Segment.IsPiece '[' piece.toList := by simpa using hpiece
  have hjoined : ",".intercalate [text] = text := by simp
  have hparse : scope.parse ("[" ++ text ++ "]") = .ok (.array ⟨text, 1⟩) := by
    have harray := @Parser.parse_array _ (scope.registry.names scope.mode) _ hroom hpieces
    rwa [hjoined] at harray
  rw [evaluateText_of_array hparse, evaluateGroup_of_piece hne hpiece, ← comp_map]
  rfl

variable {pairs : Nat}

/-- Between so many brackets, a text without delimiters comes to what it comes to as many groups
deeper, inside as many arrays. -/
theorem evaluateText_bracketed (hplain : ∀ c ∈ text.toList, Nesting.Plain c) (hne : text ≠ "")
    (hroom : scope.depth + pairs ≤ groupLimit) :
    scope.evaluateText (bracketed pairs text) id =
      Value.wrapped pairs <$>
        ({ scope with depth := scope.depth + pairs }.evaluateText text id).shifted pairs := by
  induction pairs generalizing scope with
  | zero =>
    rw [bracketed_zero, Recorded.shifted_none]
    exact (id_map _).symm
  | succ pairs ih =>
    have hnested : scope.nested.depth = scope.depth + 1 := rfl
    have hinner := @ih scope.nested (by omega)
    have hdeep : { scope.nested with depth := scope.nested.depth + pairs } =
        { scope with depth := scope.depth + (pairs + 1) } := by
      rw [hnested, Nat.add_right_comm]
      rfl
    rw [bracketed_succ, evaluateText_bracket (by omega) (bracketed_ne_empty (.inl hne))
      (isPiece_bracketed_of_plain hplain pairs), hinner, hdeep, Recorded.shifted_map,
      Recorded.shifted_shifted, ← comp_map]
    rfl

/-- The first bracket there is no room for fails the whole, whatever stands between the brackets. -/
theorem evaluateText_bracketed_of_full (hplain : ∀ c ∈ text.toList, Nesting.Plain c)
    (hdepth : scope.depth ≤ groupLimit) (hfull : groupLimit < scope.depth + pairs)
    (history : History) :
    scope.evaluateText (bracketed pairs text) id history =
      (.error (.positioned (.tooManyGroups groupLimit) (groupLimit - scope.depth) 1), history) := by
  have hlimits : groupLimit < nestingLimit := by decide
  -- on the brackets: behind the first one the scope is one group deeper
  induction pairs generalizing scope with
  | zero => omega
  | succ pairs ih =>
    by_cases hroom : scope.depth < groupLimit
    · have hnested : scope.nested.depth = scope.depth + 1 := rfl
      have hinner := @ih scope.nested (by omega) (by omega)
      have hplace : groupLimit - scope.nested.depth + 1 = groupLimit - scope.depth := by omega
      rw [bracketed_succ, evaluateText_bracket hroom (bracketed_ne_empty (.inr (by omega)))
        (isPiece_bracketed_of_plain hplain pairs), Recorded.map_apply]
      simp only [Recorded.shifted, hinner, Except.mapError, Except.map, Error.shifted, hplace]
    · have hhere : scope.depth = groupLimit := by omega
      have hparse : scope.parse (bracketed (pairs + 1) text) =
          .error (.positioned (.tooManyGroups groupLimit) 0 1) := by
        have htext : (bracketed (pairs + 1) text).toList =
            '[' :: (bracketed pairs text ++ "]").toList := by
          rw [bracketed_succ]
          simp
        exact Parser.parse_of_bracket (Nat.le_of_eq hhere.symm) (by omega) htext
      rw [evaluateText, hparse, hhere, Nat.sub_self]
      rfl

/-- Wrapped in brackets there is room for, a text without delimiters has its value wrapped in as many
arrays. Otherwise the first bracket there is no room for is refused, whatever the text is. -/
theorem evaluateText_wrapped (hdepth : scope.depth ≤ 64)
    (hplain : ∀ c ∈ text.toList, c ∉ ['\'', '[', ']', '(', ')', ',']) (id : Option Int)
    (history : History) :
    (scope.depth + pairs ≤ 64 → ∀ value history',
      { scope with depth := scope.depth + pairs }.evaluateText text id history =
          (.ok value, history') →
        scope.evaluateText (bracketed pairs text) id history =
          (.ok (value.wrapped pairs), history')) ∧
    (64 < scope.depth + pairs →
      scope.evaluateText (bracketed pairs text) id history =
        (.error (.positioned (.tooManyGroups 64) (64 - scope.depth) 1), history)) := by
  refine ⟨?_, fun hfull => evaluateText_bracketed_of_full hplain hdepth hfull history⟩
  intro hroom value history' hvalue
  have hne : text ≠ "" := by
    rintro rfl
    have hlimits : groupLimit < nestingLimit := by decide
    have hparse : { scope with depth := scope.depth + pairs }.parse "" =
        .error (.positioned (.endOfText .expression) 0 0) :=
      Parser.parse_of_blank (Nat.lt_of_le_of_lt hroom hlimits) (by simp)
    rw [evaluateText, hparse] at hvalue
    cases hvalue
  rw [evaluateText_bracketed hplain hne hroom, Recorded.map_apply,
    Recorded.shifted_eq_ok.mpr hvalue]
  rfl

/-- A scope with a variable, and with room for two arrays. -/
def roomyScope : Scope where
  registry := { variableNames := ["x"] }
  resolvers := [.ofVariables 0 fun _ _ => some (.bool true)]
  depth := 62

theorem evaluateText_wrapped_roomy :
    roomyScope.evaluateText "[[ X ]]" none [] =
        (.ok (.array [.array [.bool true]]), [⟨0, .lookup "X" none⟩]) ∧
      roomyScope.evaluateText "[[[[1 +]]]]" none [] =
        (.error (.positioned (.tooManyGroups 64) 2 1), []) := by
  have hdepth : roomyScope.depth ≤ 64 := by decide
  have hvariable : ∀ c ∈ " X ".toList, c ∉ ['\'', '[', ']', '(', ')', ','] :=
    forall_mem_of_all (by decide)
  have hsum : ∀ c ∈ "1 +".toList, c ∉ ['\'', '[', ']', '(', ')', ','] :=
    forall_mem_of_all (by decide)
  have hvalue : { roomyScope with depth := roomyScope.depth + 2 }.evaluateText " X " none [] =
      (.ok (.bool true), [⟨0, .lookup "X" none⟩]) := by decide +kernel
  have htwo : bracketed 2 " X " = "[[ X ]]" := by decide
  have hfour : bracketed 4 "1 +" = "[[[[1 +]]]]" := by decide
  have hwrapped := (@evaluateText_wrapped _ _ 2 hdepth hvariable none []).1 (by decide) _ _ hvalue
  have hfull := (@evaluateText_wrapped _ _ 4 hdepth hsum none []).2 (by decide)
  rw [htwo] at hwrapped
  rw [hfour] at hfull
  exact ⟨hwrapped, hfull⟩

end Scope

end Formula
