import Formula.Proofs.Composition
import Formula.Proofs.Tree.Balance
import Mathlib.Data.List.Forall2

/-! # Values written as source

A value is written as the language writes it, and evaluates to itself wherever it stands. A number, a
text or a truth value is one token, or two with a sign. An array is one group, which is cut where its
elements end, since every element is closed in itself; each of them is a text of its own, one group
deeper, but for the space before it.
-/

namespace Formula

/-! ## Writing -/

/-- The ways of writing a value. A text stands between quotes, a truth value is a word in any case of
its letters, and the elements of an array have a comma and a space between them. -/
inductive Value.Writes : Value → String → Prop where
  /-- A text, a truth value, or a number without a sign. -/
  | spelled {value : Value} {text : String} (h : value.Spelled text.toList) : Writes value text
  /-- A number with a sign, which may be zero, is its magnitude behind a minus. -/
  | negated {x : Float} {lexeme : String} (h : Decimal.read? false lexeme.toList = some x) :
      Writes (.number (-x)) ("-" ++ lexeme)
  | array {items : List Value} {texts : List String} (h : List.Forall₂ Writes items texts) :
      Writes (.array items) ("[" ++ ", ".intercalate texts ++ "]")

namespace Value

mutual

/-- How many arrays stand in one another, the value itself included. -/
def nesting : Value → Nat
  | .array items => nestingAll items + 1
  | .number _ | .bool _ | .text _ => 0

/-- The deepest nesting of the values. -/
def nestingAll : List Value → Nat
  | [] => 0
  | value :: values => max value.nesting (nestingAll values)

end

theorem nesting_le_of_mem {value : Value} {items : List Value} (h : value ∈ items) :
    value.nesting ≤ nestingAll items := by
  induction items with
  | nil => cases h
  | cons item items ih =>
    rw [nestingAll]
    rcases List.mem_cons.mp h with rfl | hmem
    · exact Nat.le_max_left _ _
    · exact Nat.le_trans (ih hmem) (Nat.le_max_right _ _)

/-- What holds of the values of one or two tokens, and of an array if it holds of its elements, holds
however a value is written. -/
theorem Writes.induct {P : Value → String → Prop}
    (spelled : ∀ {value : Value} {text : String}, value.Spelled text.toList → P value text)
    (negated : ∀ {x : Float} {lexeme : String}, Decimal.read? false lexeme.toList = some x →
      P (.number (-x)) ("-" ++ lexeme))
    (array : ∀ {items : List Value} {texts : List String}, List.Forall₂ Writes items texts →
      List.Forall₂ P items texts → P (.array items) ("[" ++ ", ".intercalate texts ++ "]"))
    {value : Value} {text : String} (h : value.Writes text) : P value text :=
  @Writes.rec (fun value text _ => P value text) (fun items texts _ => List.Forall₂ P items texts)
    spelled negated array .nil (fun _ _ hhead htail => .cons hhead htail) value text h

end Value

/-- The elements of an array as its segments: those behind a comma begin with a space. -/
def spaced : List String → List String
  | [] => []
  | text :: texts => text :: texts.map (" " ++ ·)

theorem intercalate_append_head {α : Type} (between front back : List α) (rest : List (List α)) :
    between.intercalate ((front ++ back) :: rest) = front ++ between.intercalate (back :: rest) := by
  cases rest with
  | nil => rw [List.intercalate_singleton, List.intercalate_singleton]
  | cons next rest => simp [List.intercalate_cons_cons]

theorem intercalate_spaced (texts : List String) :
    ",".intercalate (spaced texts) = ", ".intercalate texts := by
  cases texts with
  | nil => rfl
  | cons text texts =>
    apply String.toList_injective
    rw [String.toList_intercalate, String.toList_intercalate]
    induction texts generalizing text with
    | nil => rfl
    | cons next texts ih =>
      have hspace : (" " ++ next).toList = [' '] ++ next.toList := by simp
      have hrest := ih next
      simp only [spaced, List.map_cons, List.intercalate_cons_cons] at hrest ⊢
      rw [hspace, intercalate_append_head, hrest]
      simp

/-- What follows of the elements and of the elements behind a space holds of the segments. -/
theorem forall₂_spaced {items : List Value} {texts : List String} {R S : Value → String → Prop}
    (hfirst : ∀ value text, R value text → S value text)
    (hother : ∀ value text, R value text → S value (" " ++ text))
    (h : List.Forall₂ R items texts) : List.Forall₂ S items (spaced texts) := by
  cases h with
  | nil => exact .nil
  | cons hhead htail =>
    refine .cons (hfirst _ _ hhead) ?_
    exact List.forall₂_map_right_iff.mpr (htail.imp hother)

/-- What holds of the second of every pair holds of the second list. -/
theorem forall_mem_of_forall₂ {α β : Type} {P : β → Prop} {xs : List α} {ys : List β}
    (h : List.Forall₂ (fun _ y => P y) xs ys) : ∀ y ∈ ys, P y := by
  induction h with
  | nil =>
    intro y hy
    cases hy
  | cons hy _ ih => exact List.forall_mem_cons.mpr ⟨hy, ih⟩

/-! ## Written values are pieces -/

namespace Nesting

variable {t : Nesting} {opening : Char} {cs ds : List Char}

/-- The nesting one bracket deeper. -/
def bracketed (t : Nesting) : Nesting :=
  { t with brackets := t.brackets + 1 }

theorem advance_bracketed (t : Nesting) (c : Char) :
    t.bracketed.advance c = (t.advance c).bracketed := by
  unfold advance bracketed
  split_ifs
  all_goals try rfl
  rw [Int.sub_add_cancel, Int.add_sub_cancel]

theorem advanceAll_bracketed (t : Nesting) (cs : List Char) :
    t.bracketed.advanceAll cs = (t.advanceAll cs).bracketed := by
  induction cs generalizing t with
  | nil => rfl
  | cons c cs ih => rw [advanceAll_cons, advance_bracketed, ih, advanceAll_cons]

theorem trail_bracketed (t : Nesting) (cs : List Char) :
    t.bracketed.trail cs = (t.trail cs).map bracketed := by
  induction cs generalizing t with
  | nil => rfl
  | cons c cs ih => simp only [trail, List.map_cons, advance_bracketed, ih]

theorem Holds.bracketed (h : Holds '[' t cs) : Holds '[' t.bracketed cs := by
  intro u hu
  rw [trail_bracketed] at hu
  obtain ⟨v, hv, rfl⟩ := List.mem_map.mp hu
  have hdepth : 0 ≤ v.brackets := h v hv
  show 0 ≤ v.brackets + 1
  omega

/-- A text that leaves the nesting as it is everywhere closes nothing. -/
theorem holds_of_still (h : ∀ c ∈ cs, t.advance c = t) (hstart : 0 ≤ t.depth opening) :
    Holds opening t cs := by
  induction cs with
  | nil => exact holds_nil hstart
  | cons c cs ih =>
    refine Holds.cons hstart ?_
    rw [h c List.mem_cons_self]
    exact ih fun d hd => h d (List.mem_cons_of_mem c hd)

end Nesting

namespace Segment

variable {opening : Char} {cs ds : List Char} {pieces : List (List Char)}

theorem isPiece_of_passes (h : Nesting.top.Passes 0 cs .top)
    (hholds : Nesting.Holds opening .top cs) : IsPiece opening cs where
  closed := by
    rw [h.behind]
    rfl
  holds := hholds
  whole := by
    intro before after heq
    have hquoted := h.separators before after heq
    simp [Nesting.isTop, hquoted]

theorem isPiece_of_plain (h : ∀ c ∈ cs, Nesting.Plain c) : IsPiece opening cs := by
  refine isPiece_of_passes (Nesting.passes_of_plain h (Int.le_refl 0)) ?_
  exact Nesting.holds_of_still (fun c hc => Nesting.advance_of_plain (h c hc) .top)
    (Nesting.depth_top opening)

theorem isPiece_string (h : quote ∉ cs) : IsPiece opening (quote :: cs ++ [quote]) := by
  refine isPiece_of_passes (Nesting.passes_string h rfl (Int.le_refl 0)) ?_
  -- the nesting between the quotes
  have hquoted : (Nesting.top.advance quote).quoted = true := rfl
  have hdepth : 0 ≤ (Nesting.top.advance quote).depth opening := Nesting.depth_top opening
  have hstill : ∀ c ∈ cs, (Nesting.top.advance quote).advance c = Nesting.top.advance quote :=
    fun c hc => Nesting.advance_of_quoted (fun heq => h (heq ▸ hc)) hquoted
  have hbehind : (Nesting.top.advance quote).advanceAll cs = Nesting.top.advance quote :=
    (Nesting.passes_of_quoted h hquoted (Int.le_refl 0)).behind
  have hclose : Nesting.Holds opening (Nesting.top.advance quote) [quote] :=
    Nesting.Holds.cons hdepth (Nesting.holds_nil (Nesting.depth_top opening))
  refine Nesting.Holds.cons (Nesting.depth_top opening) ?_
  refine (Nesting.holds_of_still hstill hdepth).append ?_
  rw [hbehind]
  exact hclose

theorem IsPiece.append (h : IsPiece opening cs) (h' : IsPiece opening ds) :
    IsPiece opening (cs ++ ds) where
  closed := by
    rw [Nesting.advanceAll_append, h.behind]
    exact h'.closed
  holds := by
    refine h.holds.append ?_
    rw [h.behind]
    exact h'.holds
  whole := by
    intro before after heq
    rcases append_cons_cases heq with ⟨more, rfl, hds⟩ | ⟨more, hcs, _⟩
    · rw [Nesting.advanceAll_append, h.behind]
      exact h'.whole more after hds
    · exact h.whole before more hcs

/-- Between brackets no place is on top. -/
theorem whole_bracketed (h : Nesting.Holds '[' .top cs) : Whole .top ('[' :: cs ++ [']']) := by
  intro before after heq
  cases before with
  | nil => cases heq
  | cons c before =>
    rw [List.cons_append, List.cons_append, List.cons.injEq] at heq
    obtain ⟨rfl, heq⟩ := heq
    rcases append_cons_cases heq with ⟨more, _, hmore⟩ | ⟨more, hinside, _⟩
    · -- the closing bracket is no separator
      have hmem : separator ∈ [']'] := by simp [hmore]
      exact absurd hmem (by decide)
    · have hmem := Nesting.advanceAll_mem_trail .top before (separator :: more)
      rw [← hinside] at hmem
      have hdepth : 0 ≤ (Nesting.top.advanceAll before).brackets := h _ hmem
      have hopen : Nesting.top.advance '[' = Nesting.top.bracketed := rfl
      rw [Nesting.advanceAll_cons, hopen, Nesting.advanceAll_bracketed, Bool.eq_false_iff]
      intro htop
      have hzero : (Nesting.top.advanceAll before).brackets + 1 = 0 :=
        congrArg Nesting.brackets (Nesting.eq_top_of_isTop htop)
      omega

/-- Pieces between brackets are a piece. -/
theorem isPiece_bracketed (h : ∀ piece ∈ pieces, IsPiece '[' piece) :
    IsPiece '[' ('[' :: [separator].intercalate pieces ++ [']']) := by
  obtain ⟨hbehind, hholds⟩ := joined_of_pieces h
  have hopen : Nesting.top.advance '[' = Nesting.top.bracketed := rfl
  constructor
  · rw [List.cons_append, Nesting.advanceAll_cons, Nesting.advanceAll_append, hopen,
      Nesting.advanceAll_bracketed, hbehind]
    rfl
  · refine Nesting.Holds.cons (Nesting.depth_top '[') ?_
    rw [hopen]
    refine hholds.bracketed.append ?_
    rw [Nesting.advanceAll_bracketed, hbehind]
    decide
  · exact whole_bracketed hholds

theorem IsPiece.behind_space {text : String} (h : IsPiece '[' text.toList) :
    IsPiece '[' (" " ++ text).toList := by
  have hspace : IsPiece '[' " ".toList := by decide
  rw [String.toList_append]
  exact hspace.append h

end Segment

theorem Scan.isNumeric_of_read? {cs : List Char} {x : Float}
    (h : Decimal.read? false cs = some x) : ∀ c ∈ cs, IsNumeric c := by
  have hnumber := number_of_read? h
  have hfits : (Token.Kind.number x).Fits (number cs).lexeme :=
    fits_of_number (congrArg outcome hnumber)
  rw [hnumber] at hfits
  exact hfits.2

namespace Value

variable {value : Value} {text : String}

theorem Spelled.isPiece {cs : List Char} (h : value.Spelled cs) : Segment.IsPiece '[' cs := by
  cases h with
  | number h =>
    exact Segment.isPiece_of_plain fun c hc => plain_of_isNumeric (Scan.isNumeric_of_read? h c hc)
  | text h => exact Segment.isPiece_string h
  | bool h => exact Segment.isPiece_of_plain (plain_of_identifier (fits_of_truth h))

/-- A written value is closed in itself, whatever the texts in it hold. -/
theorem Writes.isPiece (h : value.Writes text) : Segment.IsPiece '[' text.toList := by
  refine Writes.induct (P := fun _ text => Segment.IsPiece '[' text.toList) ?_ ?_ ?_ h
  · intro value text h
    exact h.isPiece
  · intro x lexeme h
    have hminus : Segment.IsPiece '[' "-".toList := by decide
    rw [String.toList_append]
    exact hminus.append (Spelled.number h).isPiece
  · intro items texts _ ih
    have hpieces : ∀ piece ∈ (spaced texts).map String.toList, Segment.IsPiece '[' piece := by
      intro piece hpiece
      obtain ⟨text, htext, rfl⟩ := List.mem_map.mp hpiece
      have hspaced := forall₂_spaced (fun _ _ h => h) (fun _ _ h => h.behind_space) ih
      exact forall_mem_of_forall₂ hspaced text htext
    have hjoined : ("[" ++ ", ".intercalate texts ++ "]").toList =
        '[' :: [separator].intercalate ((spaced texts).map String.toList) ++ [']'] := by
      rw [← intercalate_spaced, String.toList_append, String.toList_append,
        String.toList_intercalate]
      rfl
    rw [hjoined]
    exact Segment.isPiece_bracketed hpieces

theorem Spelled.ne_nil {cs : List Char} (h : value.Spelled cs) : cs ≠ [] := by
  cases h with
  | number h =>
    rintro rfl
    cases h
  | text h => simp
  | bool h => exact Token.Kind.ne_nil_of_fits (fits_of_truth h)

theorem Writes.toList_ne_nil (h : value.Writes text) : text.toList ≠ [] := by
  cases h with
  | spelled h => exact h.ne_nil
  | negated h => simp
  | array h => simp

end Value

/-! ## Parsing -/

namespace Parser

variable {names : Names} {depth : Nat} {gap cs : List Char} {text : String} {value : Value}

/-- A text that begins with a token, perhaps behind a space, is faced from its start. -/
theorem exists_faces (hgap : IsGap gap) (hbegins : Begins cs (· ≠ none))
    (htext : text.toList = gap ++ cs) : ∃ s : State, s.From (Cursor.ofText text) ∧ s.Faces cs := by
  obtain ⟨token, cursor, hnext, _⟩ := hbegins.behind_gap hgap 0
  have hfrom : State.From ⟨token, cursor⟩ ⟨gap ++ cs, 0⟩ := hnext
  refine ⟨⟨token, cursor⟩, ?_, State.Faces.of_gap hgap ⟨0, hfrom⟩⟩
  rw [Cursor.ofText, htext]
  exact hfrom

/-- A value that is one token is parsed into itself. -/
theorem parse_of_spelled (hdepth : depth < nestingLimit) (hgap : IsGap gap) (h : value.Spelled cs)
    (htext : text.toList = gap ++ cs) : names.parse depth text = .ok (.literal value) := by
  have hprints : Tree.Prints names 0 (.literal value) cs := h.prints
  have hbegins := hprints.begins (Behind.done : Behind 0 [])
  rw [List.append_nil] at hbegins
  obtain ⟨s, hfrom, hfaces⟩ := exists_faces hgap hbegins htext
  rw [← List.append_nil cs] at hfaces
  refine parse_of_operand hdepth hfrom ?_
  intro inside below
  refine (meets_operandOver_of_spelled h (Behind.done : Behind 0 []) hfaces).mono ?_ fun _ => id
  rintro t s' ⟨rfl, hs'⟩
  exact ⟨rfl, hs'.ahead_nil⟩

/-- A value that is one token behind a prefix operator is parsed into its application. -/
theorem parse_of_prefix {op : PrefixOp} {symbol : String} (hdepth : depth + 1 < nestingLimit)
    (hgap : IsGap gap) (hop : PrefixOp.ofSymbol? symbol = some op) (h : value.Spelled cs)
    (htext : text.toList = gap ++ (symbol.toList ++ cs)) :
    names.parse depth text = .ok (.unary op (.literal value)) := by
  have hprints : Tree.Prints names 0 (.literal value) cs := h.prints
  have hbegins := hprints.begins (Behind.done : Behind 0 [])
  have hheads : Scan.Heads .operator symbol.toList (cs ++ []) :=
    heads_prefixOp hop (hprints.head_behind_gap (Or.inl rfl))
  have hbegins' : Begins (symbol.toList ++ (cs ++ [])) (· ≠ none) :=
    begins_of_heads hheads (by simp)
  rw [← List.append_nil cs] at htext
  obtain ⟨s, hfrom, hfaces⟩ := exists_faces hgap hbegins' htext
  refine parse_of_stage (by omega) hfrom ?_
  -- the operand takes one level of the budget
  obtain ⟨n, hn⟩ : ∃ n, nestingLimit - depth - 1 = n + 1 := ⟨nestingLimit - depth - 2, by omega⟩
  have hstage : (stage ⟨names, depth, text.length + 1⟩ (n + 1)).operand =
      operandOver ⟨names, depth, text.length + 1⟩
        ((stage ⟨names, depth, text.length + 1⟩ (n + 1)).expression 0)
        (some (stage ⟨names, depth, text.length + 1⟩ n).operand) := rfl
  rw [hn, hstage]
  refine meets_operandOver_of_prefix hop hheads hbegins hfaces ?_
  intro s' hs'
  obtain ⟨below, hbelow⟩ := operand_stage ⟨names, depth, text.length + 1⟩ n
  refine meets_map ?_
  rw [hbelow]
  refine (meets_operandOver_of_spelled h (Behind.done : Behind 0 []) hs').mono ?_ fun _ => id
  rintro t s'' ⟨rfl, hs''⟩
  exact ⟨rfl, hs''.ahead_nil⟩

end Parser

/-! ## Evaluating -/

theorem Recorded.shifted_pure {σ α : Type} (distance : Nat) (a : α) :
    (pure a : Recorded σ α).shifted distance = pure a := rfl

theorem evaluateSegments_of_pure {σ : Type} {evaluate : String → Option Int → Recorded σ Value}
    {id : Option Int} {values : List Value} {texts : List String}
    (h : List.Forall₂ (fun value text => evaluate text id = pure value) values texts)
    (start : Nat) :
    evaluateSegments evaluate id (Segment.place start (texts.map String.toList)) = pure values := by
  induction h generalizing start with
  | nil => rfl
  | cons hhead _ ih =>
    simp only [List.map_cons, Segment.place, evaluateSegments, String.ofList_toList, hhead, ih,
      Recorded.shifted_pure, pure_bind]

namespace Scope

variable {scope : Scope} {id : Option Int} {gap : List Char} {text : String}

/-- A group has the values of its segments, if they evaluate without a question. -/
theorem evaluateGroup_of_pure {values : List Value} {texts : List String}
    (hpieces : ∀ text ∈ texts, Segment.IsPiece '[' text.toList)
    (hne : ∀ text ∈ texts, text.toList ≠ [])
    (h : List.Forall₂ (fun value text => scope.nested.evaluateText text id = pure value) values
      texts) (offset : Nat) :
    scope.evaluateGroup id ⟨",".intercalate texts, offset⟩ = pure values := by
  rw [evaluateGroup_eq]
  cases texts with
  | nil =>
    cases h
    rfl
  | cons text texts =>
    have hraw : ",".intercalate (text :: texts) ≠ "" := by
      intro hempty
      have hlist : ",".toList.intercalate ((text.toList ++ []) :: texts.map String.toList) = [] := by
        rw [List.append_nil, ← List.map_cons, ← String.toList_intercalate, hempty]
        rfl
      rw [intercalate_append_head, List.append_eq_nil_iff] at hlist
      exact hne text List.mem_cons_self hlist.1
    have hsegments := evaluateSegments_of_pure h 0
    rw [← Segment.all_intercalate hraw hpieces] at hsegments
    show (evaluateSegments _ id _).shifted offset = _
    rw [hsegments, Recorded.shifted_pure]

/-- Wherever there is room for the arrays of the value, the source evaluates to it without a question,
also behind a space. -/
def EvaluatesAs (id : Option Int) (value : Value) (source : String) : Prop :=
  ∀ (scope : Scope) (gap : List Char) (text : String),
    scope.depth + value.nesting ≤ groupLimit → IsGap gap → text.toList = gap ++ source.toList →
      scope.evaluateText text id = pure value

theorem evaluatesAs_of_spelled {value : Value} {source : String} (h : value.Spelled source.toList) :
    EvaluatesAs id value source := by
  intro scope gap text hdepth hgap htext
  have hlimits : groupLimit < nestingLimit := by decide
  have hparse : scope.parse text = .ok (.literal value) :=
    Parser.parse_of_spelled (by omega) hgap h htext
  unfold evaluateText
  rw [hparse]
  rfl

theorem evaluatesAs_of_negated {x : Float} {lexeme : String}
    (h : Decimal.read? false lexeme.toList = some x) :
    EvaluatesAs id (.number (-x)) ("-" ++ lexeme) := by
  intro scope gap text hdepth hgap htext
  have hlimits : groupLimit + 1 < nestingLimit := by decide
  have hminus : PrefixOp.ofSymbol? "-" = some .negate := rfl
  have hparse : scope.parse text = .ok (.unary .negate (.literal (.number x))) := by
    refine Parser.parse_of_prefix (by omega) hgap hminus (.number h) ?_
    rw [htext, String.toList_append]
  unfold evaluateText
  rw [hparse]
  rfl

/-- The elements of an array are evaluated one group deeper, where there is room for their arrays. -/
theorem evaluatesAs_of_array {items : List Value} {texts : List String}
    (hwrites : List.Forall₂ Value.Writes items texts)
    (h : List.Forall₂ (EvaluatesAs id) items texts) :
    EvaluatesAs id (.array items) ("[" ++ ", ".intercalate texts ++ "]") := by
  intro scope gap text hdepth hgap htext
  rw [Value.nesting] at hdepth
  have hpieces : ∀ text ∈ spaced texts, Segment.IsPiece '[' text.toList :=
    forall_mem_of_forall₂ (forall₂_spaced (fun _ _ h => h.isPiece)
      (fun _ _ h => h.isPiece.behind_space) hwrites)
  have hne : ∀ text ∈ spaced texts, text.toList ≠ [] :=
    forall_mem_of_forall₂ (forall₂_spaced (fun _ _ h => h.toList_ne_nil) (fun _ _ _ => by simp)
      hwrites)
  have hparse : scope.parse text =
      .ok (.array ⟨",".intercalate (spaced texts), gap.length + 1⟩) := by
    refine Parser.parse_array_behind hgap (by omega) hpieces ?_
    rw [htext, intercalate_spaced]
    simp
  have hnested : scope.nested.depth = scope.depth + 1 := rfl
  have hroom : ∀ item ∈ items, scope.nested.depth + item.nesting ≤ groupLimit := by
    intro item hitem
    have hnesting := Value.nesting_le_of_mem hitem
    omega
  have hvalues : List.Forall₂ (fun value text => scope.nested.evaluateText text id = pure value)
      items (spaced texts) := by
    refine forall₂_spaced ?_ ?_ ((List.forall₂_and_left _ _).mpr ⟨hroom, h⟩)
    · rintro value source ⟨hroom, hvalue⟩
      exact hvalue scope.nested [] source hroom (Or.inl rfl) rfl
    · rintro value source ⟨hroom, hvalue⟩
      exact hvalue scope.nested [' '] (" " ++ source) hroom isGap_space (by simp)
  have heval : scope.evaluateText text id =
      scope.evaluateGroup id ⟨",".intercalate (spaced texts), gap.length + 1⟩ >>= fun items =>
        pure (.array items) := by
    unfold evaluateText
    rw [hparse]
    rfl
  rw [heval, evaluateGroup_of_pure hpieces hne hvalues, pure_bind]

/-- A value that is written as source evaluates to itself in every scope that leaves room for its
arrays. No question is asked, since the record stays as it was. -/
theorem evaluateText_of_writes {value : Value} {source : String} (h : value.Writes source)
    (hdepth : scope.depth + value.nesting ≤ groupLimit) (id : Option Int) (history : History) :
    scope.evaluateText source id history = (.ok value, history) := by
  have hvalue : EvaluatesAs id value source :=
    Value.Writes.induct evaluatesAs_of_spelled evaluatesAs_of_negated evaluatesAs_of_array h
  rw [hvalue scope [] source hdepth (Or.inl rfl) rfl]
  rfl

/-- A scope in which two arrays may stand in one another. -/
def deepScope : Scope where
  resolvers := [Resolver.silent 0]
  depth := 62

/-- The delimiters of lists in a text, the negative zero, and arrays without elements. -/
def mixedValue : Value :=
  .array [.text "],(", .number (-Decimal.nearest false 0 0), .array [], .array [.bool true]]

theorem evaluateText_of_writes_mixed :
    mixedValue.Writes "['],(', -0.0, [], [True]]" ∧
      deepScope.depth + mixedValue.nesting = groupLimit ∧
      deepScope.evaluateText "['],(', -0.0, [], [True]]" (some 7) [] = (.ok mixedValue, []) := by
  have hempty : Value.Writes (.array []) "[]" := .array .nil
  have htrue : Value.Writes (.array [.bool true]) "[True]" := by
    have hword : Value.Writes (.bool true) "True" := .spelled (.bool (by decide))
    exact .array (.cons hword .nil)
  have htext : Value.Writes (.text "],(") "'],('" := .spelled (.text (by decide))
  have hzero : Value.Writes (.number (-Decimal.nearest false 0 0)) "-0.0" := by
    have hread : Decimal.read? false "0.0".toList = some (Decimal.nearest false 0 0) := by
      decide +kernel
    exact .negated hread
  have hwrites : mixedValue.Writes "['],(', -0.0, [], [True]]" :=
    .array (.cons htext (.cons hzero (.cons hempty (.cons htrue .nil))))
  have hdepth : deepScope.depth + mixedValue.nesting = groupLimit := by decide
  exact ⟨hwrites, hdepth, evaluateText_of_writes hwrites (Nat.le_of_eq hdepth) (some 7) []⟩

end Scope

end Formula
