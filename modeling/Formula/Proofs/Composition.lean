import Formula.Proofs.Levels
import Formula.Proofs.Pieces
import Formula.Proofs.Tree.Reparsing

/-! # Arrays and calls are made of their elements

A text that is one array or one call is parsed into one group, whatever its pieces are. Evaluating it
is evaluating the pieces in order as texts of their own, one group deeper.
-/

namespace Formula

/-! ## Texts that are one group -/

namespace Parser

variable {setting : Setting} {s : State} {opening closing : Char} {texts : List String}

/-- A group of joined texts is captured from behind the delimiter that opens it. -/
theorem meets_group_of_pieces (hdepth : setting.depth < groupLimit)
    (hcloses : Cursor.Closes opening closing)
    (h : ∀ text ∈ texts, Segment.IsPiece opening text.toList) {openedAt position : Nat}
    (hs : s.cursor = ⟨(",".intercalate texts).toList ++ [closing], position⟩) :
    Meets (group setting opening openedAt) s
      (fun found s' => found = ⟨",".intercalate texts, position⟩ ∧ s'.ahead = none)
      fun _ => False := by
  have htake := Cursor.takeGroup_intercalate hcloses h openedAt position
  rw [← hs] at htake
  refine meets_group ?_ ?_ ?_
  · intro hfull
    omega
  · intro e c herror
    cases herror.symm.trans htake
  · intro _ raw offset c hfound
    cases hfound.symm.trans htake
    constructor
    · intro e c' herror
      cases herror
    · intro s' hs'
      have hend : State.From ⟨none, ⟨[], position + (",".intercalate texts).length + 1⟩⟩
          ⟨[], position + (",".intercalate texts).length + 1⟩ := rfl
      obtain rfl := hend.unique hs'
      exact ⟨rfl, rfl⟩

/-- The name of a function with a parenthesis behind it is called. -/
theorem meets_name_of_call {token opening : Token} {after : Tree → State → Prop}
    {failure : Error → Prop} (htrue : Text.sameFolded token.text "true" = false)
    (hfalse : Text.sameFolded token.text "false" = false) (hahead : s.ahead = some opening)
    (hopening : opening.isOpening "(" = true)
    (hfunction : setting.names.isFunction token.text = true)
    (h : Meets (.call token.text <$> group setting '(' opening.position) s after failure) :
    Meets (name setting token) s after failure := by
  unfold name
  rw [if_neg (by simp [htrue]), if_neg (by simp [hfalse])]
  refine meets_peek ?_
  simp only [hahead, hopening, hfunction, Bool.and_self, if_true]
  exact h

/-- A text that is one operand is parsed into it. -/
theorem parse_of_stage {names : Names} {depth : Nat} (hdepth : depth < nestingLimit)
    {text : String} {tree : Tree} (hs : s.From (Cursor.ofText text))
    (h : Meets (stage ⟨names, depth, text.length + 1⟩ (nestingLimit - depth - 1)).operand s
      (fun t s' => t = tree ∧ s'.ahead = none) fun _ => False) :
    names.parse depth text = .ok tree := by
  have hbudget : nestingLimit - depth = (nestingLimit - depth - 1) + 1 := by omega
  have hparse : Ends (names.parse depth text) (· = tree) fun _ => False := by
    refine parse_meets ?_ ?_
    · intro e cursor herror
      cases hs.symm.trans herror
    · intro s' hs'
      obtain rfl := hs.unique hs'
      rw [hbudget]
      refine meets_whole ?_
      -- behind the operand nothing is ahead, so neither the loop nor the text goes on
      refine meets_bind h ?_
      rintro t s₁ ⟨rfl, hahead⟩
      refine meets_climb_succ ?_ ?_
      · intro _
        refine ⟨fun _ => rfl, ?_⟩
        intro token htoken
        cases hahead.symm.trans htoken
      · intro op hop
        simp [hahead] at hop
  cases hrun : names.parse depth text with
  | ok t =>
    rw [hrun] at hparse
    exact congrArg Except.ok hparse
  | error e =>
    rw [hrun] at hparse
    exact hparse.elim

/-- A text that is one operand within any budget is parsed into it. -/
theorem parse_of_operand {names : Names} {depth : Nat} (hdepth : depth < nestingLimit)
    {text : String} {tree : Tree} (hs : s.From (Cursor.ofText text))
    (h : ∀ inside below, Meets (operandOver ⟨names, depth, text.length + 1⟩ inside below) s
      (fun t s' => t = tree ∧ s'.ahead = none) fun _ => False) :
    names.parse depth text = .ok tree := by
  refine parse_of_stage hdepth hs ?_
  obtain ⟨below, hstage⟩ := operand_stage ⟨names, depth, text.length + 1⟩
    (nestingLimit - depth - 1)
  rw [hstage]
  exact h _ below

variable {names : Names} {depth : Nat}

/-- Pieces between brackets are an array, also behind a space. -/
theorem parse_array_behind {gap : List Char} {text : String} (hgap : IsGap gap)
    (hdepth : depth < groupLimit) (h : ∀ text ∈ texts, Segment.IsPiece '[' text.toList)
    (htext : text.toList = gap ++ '[' :: ((",".intercalate texts).toList ++ [']'])) :
    names.parse depth text = .ok (.array ⟨",".intercalate texts, gap.length + 1⟩) := by
  have hs : State.From
      ⟨some ⟨.opening, "[", gap.length, 1⟩,
        ⟨(",".intercalate texts).toList ++ [']'], gap.length + 1⟩⟩ (Cursor.ofText text) := by
    rw [State.From, Cursor.ofText, htext, Cursor.next_of_scan hgap.blank (by decide) rfl, Nat.zero_add]
    rfl
  refine parse_of_operand (Nat.lt_trans hdepth (by decide)) hs ?_
  intro inside below
  refine meets_operandOver ?_ ?_
  · intro _
    refine meets_primary ?_ ?_ ?_
    · intro hnone
      cases hnone
    · intro token htoken _
      refine meets_map ((meets_group_of_pieces hdepth (Or.inl ⟨rfl, rfl⟩) h rfl).mono ?_ ?_)
      · rintro found s' ⟨rfl, hahead⟩
        exact ⟨rfl, hahead⟩
      · exact fun _ => id
    · intro token htoken hopening
      cases htoken
      cases hopening
  · intro op hop
    cases hop

/-- Pieces between brackets are an array. -/
theorem parse_array (hdepth : depth < groupLimit)
    (h : ∀ text ∈ texts, Segment.IsPiece '[' text.toList) :
    names.parse depth ("[" ++ ",".intercalate texts ++ "]") =
      .ok (.array ⟨",".intercalate texts, 1⟩) :=
  parse_array_behind (Or.inl rfl) hdepth h (by simp)

/-- The name of a function and pieces between parentheses are a call. -/
theorem parse_call (hdepth : depth < groupLimit) {name : String}
    (hname : Token.Kind.identifier.Fits name.toList) (htrue : Text.sameFolded name "true" = false)
    (hfalse : Text.sameFolded name "false" = false) (hfunction : names.isFunction name = true)
    (h : ∀ text ∈ texts, Segment.IsPiece '(' text.toList) :
    names.parse depth (name ++ "(" ++ ",".intercalate texts ++ ")") =
      .ok (.call name ⟨",".intercalate texts, name.length + 1⟩) := by
  have htext : (name ++ "(" ++ ",".intercalate texts ++ ")").toList =
      name.toList ++ (['('] ++ ((",".intercalate texts).toList ++ [')'])) := by simp
  have hheads : Scan.Heads .identifier name.toList
      (['('] ++ ((",".intercalate texts).toList ++ [')'])) := by
    refine Scan.heads_identifier hname ?_
    intro c hc
    cases hc
    decide
  have hs : State.From
      ⟨some ⟨.identifier, name, 0, name.length⟩,
        ⟨['('] ++ ((",".intercalate texts).toList ++ [')']), name.length⟩⟩
      (Cursor.ofText (name ++ "(" ++ ",".intercalate texts ++ ")")) := by
    rw [State.From, Cursor.ofText, htext, Cursor.next_of_heads hheads]
    simp only [Token.Kind.textOf, String.ofList_toList, String.length_toList, Nat.zero_add]
  refine parse_of_operand (Nat.lt_trans hdepth (by decide)) hs ?_
  have hnext : State.From
      ⟨some ⟨.opening, "(", name.length, 1⟩,
        ⟨(",".intercalate texts).toList ++ [')'], name.length + 1⟩⟩
      ⟨['('] ++ ((",".intercalate texts).toList ++ [')']), name.length⟩ :=
    Cursor.next_of_heads (Scan.heads_opening _) name.length
  intro inside below
  refine meets_operandOver ?_ ?_
  · intro _
    refine meets_primary ?_ ?_ ?_
    · intro hnone
      cases hnone
    · intro token htoken hopening
      cases htoken
      cases hopening
    · intro token htoken _
      cases htoken
      refine meets_next ?_ ?_
      · intro s' hs'
        obtain rfl := hnext.unique hs'
        refine meets_name_of_call htrue hfalse rfl rfl hfunction ?_
        refine meets_map ((meets_group_of_pieces hdepth (Or.inr ⟨rfl, rfl⟩) h rfl).mono ?_ ?_)
        · rintro found s' ⟨rfl, hahead⟩
          exact ⟨rfl, hahead⟩
        · exact fun _ => id
      · intro e cursor herror
        cases herror.symm.trans hnext
  · intro op hop
    cases hop

end Parser

/-! ## Evaluating one group -/

namespace Scope

variable {scope : Scope} {id : Option Int} {opening : Char} {texts : List String}

/-- A text that is an array comes to the values of its group. -/
theorem evaluateText_of_array {text : String} {group : Group}
    (h : scope.parse text = .ok (.array group)) :
    scope.evaluateText text id = Value.array <$> scope.evaluateGroup id group := by
  rw [map_eq_pure_bind, evaluateText, h]
  rfl

/-- A text that is a call asks for the result of the function at the values of its group. -/
theorem evaluateText_of_call {name text : String} {group : Group}
    (h : scope.parse text = .ok (.call name group)) :
    scope.evaluateText text id = scope.evaluateGroup id group >>= fun values =>
      scope.ask (.call name values id) (.unresolvedFunction name) := by
  rw [evaluateText, h]
  rfl

/-- The pieces of a group are evaluated in order, one group deeper. -/
theorem inOrder_evaluateGroup (hne : ",".intercalate texts ≠ "")
    (h : ∀ text ∈ texts, Segment.IsPiece opening text.toList) (offset : Nat) :
    InOrder scope.nested.evaluateText id texts offset
      (scope.evaluateGroup id ⟨",".intercalate texts, offset⟩) pure := by
  have hplaced : InOrder scope.nested.evaluateText id texts 0
      (evaluateSegments scope.nested.evaluateText id (Segment.all (",".intercalate texts))) pure := by
    rw [Segment.all_intercalate hne h]
    exact inOrder_place texts 0
  rw [evaluateGroup_eq]
  exact hplaced.shifted offset

/-- Pieces between brackets make an array of their values, and pieces between parentheses are the
arguments of the function before them: they are evaluated in order as texts of their own, one group
deeper, and the first that fails fails the whole at its place. -/
theorem evaluateText_of_pieces (hdepth : scope.depth < groupLimit) (id : Option Int)
    (texts : List String) (hne : ",".intercalate texts ≠ "") :
    ((∀ text ∈ texts, Segment.IsPiece '[' text.toList) →
      InOrder scope.nested.evaluateText id texts 1
        (scope.evaluateText ("[" ++ ",".intercalate texts ++ "]") id)
        fun values => pure (.array values)) ∧
    ∀ name : String, Token.Kind.identifier.Fits name.toList →
      Text.sameFolded name "true" = false → Text.sameFolded name "false" = false →
      scope.registry.hasFunction scope.mode name = true →
      (∀ text ∈ texts, Segment.IsPiece '(' text.toList) →
        InOrder scope.nested.evaluateText id texts (name.length + 1)
          (scope.evaluateText (name ++ "(" ++ ",".intercalate texts ++ ")") id)
          fun values => scope.ask (.call name values id) (.unresolvedFunction name) := by
  constructor
  · intro h
    have hparse : scope.parse ("[" ++ ",".intercalate texts ++ "]") =
        .ok (.array ⟨",".intercalate texts, 1⟩) := Parser.parse_array hdepth h
    have heval : scope.evaluateText ("[" ++ ",".intercalate texts ++ "]") id =
        scope.evaluateGroup id ⟨",".intercalate texts, 1⟩ >>= fun values =>
          pure (.array values) := by
      unfold evaluateText
      rw [hparse]
      rfl
    rw [heval]
    exact (inOrder_evaluateGroup hne h 1).bind _
  · intro name hname htrue hfalse hfunction h
    have hparse : scope.parse (name ++ "(" ++ ",".intercalate texts ++ ")") =
        .ok (.call name ⟨",".intercalate texts, name.length + 1⟩) :=
      Parser.parse_call hdepth hname htrue hfalse hfunction h
    have heval : scope.evaluateText (name ++ "(" ++ ",".intercalate texts ++ ")") id =
        scope.evaluateGroup id ⟨",".intercalate texts, name.length + 1⟩ >>= fun values =>
          scope.ask (.call name values id) (.unresolvedFunction name) := by
      unfold evaluateText
      rw [hparse]
      rfl
    rw [heval]
    exact (inOrder_evaluateGroup hne h (name.length + 1)).bind _

/-- A scope with one function, which comes to its last argument. -/
def maxScope : Scope where
  registry := { functionNames := ["max"] }
  resolvers := [.ofFunctions 0 fun _ arguments _ => arguments.getLast?]

/-- The values of the pieces `[1,2]` and `'],)'`. -/
def maxValues : List Value :=
  [.array [.number (Decimal.nearest false 1 0), .number (Decimal.nearest false 2 0)], .text "],)"]

theorem evaluateText_of_pieces_max :
    maxScope.depth < groupLimit ∧ ",".intercalate ["[1,2]", "'],)'"] ≠ "" ∧
      ((∀ text ∈ ["[1,2]", "'],)'"], Segment.IsPiece '[' text.toList) ∧
        InOrder maxScope.nested.evaluateText none ["[1,2]", "'],)'"] 1
          (maxScope.evaluateText ("[" ++ ",".intercalate ["[1,2]", "'],)'"] ++ "]") none)
          (fun values => pure (.array values)) ∧
        (maxScope.evaluateText "[[1,2],'],)']" none []).1 = .ok (.array maxValues) ∧
        (maxScope.evaluateText "[[1,2],'],)']" none []).2 = []) ∧
      (Token.Kind.identifier.Fits "Max".toList ∧ Text.sameFolded "Max" "true" = false ∧
        Text.sameFolded "Max" "false" = false ∧
        maxScope.registry.hasFunction maxScope.mode "Max" = true ∧
        (∀ text ∈ ["[1,2]", "'],)'"], Segment.IsPiece '(' text.toList) ∧
        InOrder maxScope.nested.evaluateText none ["[1,2]", "'],)'"] 4
          (maxScope.evaluateText ("Max" ++ "(" ++ ",".intercalate ["[1,2]", "'],)'"] ++ ")") none)
          (fun values => maxScope.ask (.call "Max" values none) (.unresolvedFunction "Max")) ∧
        (maxScope.evaluateText "Max([1,2],'],)')" none []).1 = .ok (.text "],)") ∧
        (maxScope.evaluateText "Max([1,2],'],)')" none []).2 = [⟨0, .call "Max" maxValues none⟩]) := by
  have hne : ",".intercalate ["[1,2]", "'],)'"] ≠ "" := by decide
  have hbrackets : ∀ text ∈ ["[1,2]", "'],)'"], Segment.IsPiece '[' text.toList := by decide
  have hparens : ∀ text ∈ ["[1,2]", "'],)'"], Segment.IsPiece '(' text.toList := by decide
  have hname : Token.Kind.identifier.Fits "Max".toList :=
    ⟨'M', ['a', 'x'], by decide, by decide, forall_mem_of_all (by decide)⟩
  have hpieces := @evaluateText_of_pieces maxScope (by decide) none _ hne
  refine ⟨by decide, hne, ⟨hbrackets, hpieces.1 hbrackets, ?_, ?_⟩, hname, by decide, by decide,
    by decide, hparens, hpieces.2 "Max" hname (by decide) (by decide) (by decide) hparens, ?_, ?_⟩
  · decide +kernel
  · decide +kernel
  · decide +kernel
  · decide +kernel

end Scope

end Formula
