import Formula.Proofs.Wrapping

/-! # Lists of blanks

A list without any text between its delimiters has no elements. Blanks make a difference there, unlike
anywhere else around a delimiter: a list that holds nothing else has one segment, which holds no
expression. Its evaluation fails where the list closes, before a resolver is asked.
-/

namespace Formula

variable {scope : Scope} {id : Option Int} {blanks : String}

/-- Blanks are a piece of any list. -/
theorem Segment.isPiece_of_blank (hblank : ∀ c ∈ blanks.toList, Text.isBlank c = true)
    (opening : Char) : IsPiece opening blanks.toList :=
  isPiece_of_plain fun c hc => plain_of_isBlank (hblank c hc)

namespace Scope

/-- Blanks come to no value. -/
theorem evaluateText_of_blank_text (hdepth : scope.depth < nestingLimit)
    (hblank : ∀ c ∈ blanks.toList, Text.isBlank c = true) :
    scope.evaluateText blanks id =
      throw (.positioned (.endOfText .expression) blanks.length 0) := by
  have hparse : scope.parse blanks =
      .error (.positioned (.endOfText .expression) blanks.length 0) :=
    Parser.parse_of_blank hdepth hblank
  rw [evaluateText, hparse]
  rfl

/-- A group of blanks has no values if it is empty. Otherwise an expression is wanted where it ends. -/
theorem evaluateGroup_of_blank (hroom : scope.depth < groupLimit)
    (hblank : ∀ c ∈ blanks.toList, Text.isBlank c = true) (offset : Nat) :
    scope.evaluateGroup id ⟨blanks, offset⟩ =
      if blanks = "" then pure []
      else throw (.positioned (.endOfText .expression) (blanks.length + offset) 0) := by
  have hlimits : groupLimit < nestingLimit := by decide
  have hnested : scope.nested.depth = scope.depth + 1 := rfl
  by_cases hempty : blanks = ""
  · rw [if_pos hempty, hempty, evaluateGroup_eq]
    rfl
  · rw [if_neg hempty, evaluateGroup_of_piece hempty (Segment.isPiece_of_blank hblank '['),
      evaluateText_of_blank_text (by omega) hblank]
    rfl

/-- A list that holds only blanks is an empty array, or calls a function without arguments, exactly
if it holds none. Otherwise it fails where it closes, for want of an expression, and nothing is asked. -/
theorem evaluateText_blank_list (hdepth : scope.depth < 64)
    (hblank : ∀ c ∈ blanks.toList, Text.isBlank c = true) (id : Option Int) :
    (scope.evaluateText ("[" ++ blanks ++ "]") id =
      if blanks = "" then pure (.array [])
      else throw (.positioned (.endOfText .expression) (blanks.length + 1) 0)) ∧
    ∀ name : String, Token.Kind.identifier.Fits name.toList →
      Text.sameFolded name "true" = false → Text.sameFolded name "false" = false →
      scope.registry.hasFunction scope.mode name = true →
        scope.evaluateText (name ++ "(" ++ blanks ++ ")") id =
          if blanks = "" then scope.ask (.call name [] id) (.unresolvedFunction name)
          else
            throw (.positioned (.endOfText .expression) (blanks.length + (name.length + 1)) 0) := by
  have hjoined : ",".intercalate [blanks] = blanks := by simp
  constructor
  · have hparse : scope.parse ("[" ++ blanks ++ "]") = .ok (.array ⟨blanks, 1⟩) := by
      have harray := @Parser.parse_array [blanks] (scope.registry.names scope.mode) _ hdepth
        (by simpa using Segment.isPiece_of_blank hblank '[')
      rwa [hjoined] at harray
    rw [evaluateText_of_array hparse, evaluateGroup_of_blank hdepth hblank]
    split
    · rfl
    · rfl
  · intro name hname htrue hfalse hfunction
    have hparse : scope.parse (name ++ "(" ++ blanks ++ ")") =
        .ok (.call name ⟨blanks, name.length + 1⟩) := by
      have hcall := @Parser.parse_call [blanks] (scope.registry.names scope.mode) _ hdepth name hname
        htrue hfalse hfunction (by simpa using Segment.isPiece_of_blank hblank '(')
      rwa [hjoined] at hcall
    rw [evaluateText_of_call hparse, evaluateGroup_of_blank hdepth hblank]
    split
    · rfl
    · rfl

/-- A scope with a function that takes no arguments, in the last group that may hold another. -/
def clockScope : Scope where
  registry := { functionNames := ["now"] }
  resolvers := [.ofFunctions 0 fun _ arguments _ => some (.bool arguments.isEmpty)]
  depth := 63

theorem evaluateText_blank_list_clock :
    clockScope.depth < 64 ∧ (∀ c ∈ "\t\u3000".toList, Text.isBlank c = true) ∧
      clockScope.evaluateText "[]" none = pure (.array []) ∧
      clockScope.evaluateText "Now()" none =
        clockScope.ask (.call "Now" [] none) (.unresolvedFunction "Now") ∧
      clockScope.evaluateText "Now(\t\u3000)" none =
        throw (.positioned (.endOfText .expression) 6 0) := by
  have hdepth : clockScope.depth < 64 := by decide
  have hblank : ∀ c ∈ "\t\u3000".toList, Text.isBlank c = true := forall_mem_of_all (by decide)
  have hname : Token.Kind.identifier.Fits "Now".toList :=
    ⟨'N', ['o', 'w'], by decide, by decide, forall_mem_of_all (by decide)⟩
  have hempty := @evaluateText_blank_list clockScope "" hdepth (by simp) none
  have hfull := (@evaluateText_blank_list clockScope _ hdepth hblank none).2 "Now" hname (by decide)
    (by decide) (by decide)
  exact ⟨hdepth, hblank, hempty.1, hempty.2 "Now" hname (by decide) (by decide) (by decide), hfull⟩

/-- A blank between the delimiters is enough: neither is there an array, nor is the function asked for. -/
theorem evaluateText_blank_list_ne_empty :
    clockScope.depth < 64 ∧ Text.isBlank ' ' = true ∧
      (clockScope.evaluateText "[]" none []).1 = .ok (.array []) ∧
      (clockScope.evaluateText "[ ]" none []).1 ≠ .ok (.array []) ∧
      (clockScope.evaluateText "now()" none []).2 = [⟨0, .call "now" [] none⟩] ∧
      (clockScope.evaluateText "now( )" none []).2 ≠ [⟨0, .call "now" [] none⟩] :=
  ⟨by decide, by decide, by decide +kernel, by decide +kernel, by decide +kernel, by decide +kernel⟩

end Scope

end Formula
