import Formula.Proofs.Pieces

/-! # Argument lists are divided in one way

A list that is not empty is divided at its separators on top, and there is only one way of doing so.
The evaluator is called on the texts of the division, one after another, until it fails.
-/

namespace Formula

/-! ## The division of a list -/

namespace Segment

variable {t : Nesting} {pieces : List (List Char)} {raw : String} {texts : List String}

/-- The texts make up the list. Each but the last comes back to the top, and none has a separator
there. -/
structure Divides (raw : String) (texts : List String) : Prop where
  joined : ",".intercalate texts = raw
  closed : ∀ text ∈ texts.dropLast, (Nesting.top.advanceAll text.toList).isTop = true
  whole : ∀ text ∈ texts, Whole .top text.toList

theorem Division.whole (h : Division .top pieces) : ∀ piece ∈ pieces, Whole .top piece := by
  generalize htop : Nesting.top = t at h
  induction h with
  | last h =>
    subst htop
    intro piece hpiece
    rw [List.mem_singleton.mp hpiece]
    exact h
  | more h _ _ ih =>
    subst htop
    intro piece hpiece
    rcases List.mem_cons.mp hpiece with rfl | hpiece
    · exact h
    · exact ih rfl piece hpiece

theorem Division.closed (h : Division .top pieces) :
    ∀ piece ∈ pieces.dropLast, (Nesting.top.advanceAll piece).isTop = true := by
  generalize htop : Nesting.top = t at h
  induction h with
  | last h =>
    intro piece hpiece
    cases hpiece
  | more _ hclosed hrest ih =>
    subst htop
    intro piece hpiece
    rw [List.dropLast_cons_of_ne_nil hrest.ne_nil] at hpiece
    rcases List.mem_cons.mp hpiece with rfl | hpiece
    · exact hclosed
    · exact ih rfl piece hpiece

theorem division_of_closed (hne : pieces ≠ [])
    (hclosed : ∀ piece ∈ pieces.dropLast, (Nesting.top.advanceAll piece).isTop = true)
    (hwhole : ∀ piece ∈ pieces, Whole .top piece) : Division .top pieces := by
  induction pieces with
  | nil => exact absurd rfl hne
  | cons piece pieces ih =>
    have hpiece := hwhole piece List.mem_cons_self
    by_cases hlast : pieces = []
    · rw [hlast]
      exact .last hpiece
    · rw [List.dropLast_cons_of_ne_nil hlast] at hclosed
      refine .more hpiece (hclosed piece List.mem_cons_self) (ih hlast ?_ ?_)
      · exact fun p hp => hclosed p (List.mem_cons_of_mem _ hp)
      · exact fun p hp => hwhole p (List.mem_cons_of_mem _ hp)

/-- The list is cut into the texts that divide it. -/
theorem Divides.cut_eq (hraw : raw ≠ "") (h : Divides raw texts) :
    cut .top raw.toList = texts.map String.toList := by
  have hne : texts.map String.toList ≠ [] := by
    intro hnil
    have hjoined := h.joined
    rw [List.map_eq_nil_iff.mp hnil, String.intercalate_nil] at hjoined
    exact hraw hjoined.symm
  have hdivision : Division .top (texts.map String.toList) := by
    refine division_of_closed hne ?_ ?_
    · intro piece hpiece
      rw [← List.map_dropLast] at hpiece
      obtain ⟨text, htext, rfl⟩ := List.mem_map.mp hpiece
      exact h.closed text htext
    · intro piece hpiece
      obtain ⟨text, htext, rfl⟩ := List.mem_map.mp hpiece
      exact h.whole text htext
  rw [← h.joined, String.toList_intercalate]
  exact hdivision.cut_eq

theorem Divides.unique {texts' : List String} (hraw : raw ≠ "") (h : Divides raw texts)
    (h' : Divides raw texts') : texts' = texts := by
  have hsame := (h'.cut_eq hraw).symm.trans (h.cut_eq hraw)
  exact (List.map_inj_right fun _ _ heq => String.toList_injective heq).mp hsame

/-- What a list is cut into divides it. -/
theorem divides_cut (raw : String) : Divides raw ((cut .top raw.toList).map String.ofList) := by
  have hdivision := division_cut .top raw.toList
  constructor
  · apply String.toList_injective
    have hpieces : (cut .top raw.toList).map (String.toList ∘ String.ofList) =
        cut .top raw.toList := by
      simp [Function.comp_def]
    rw [String.toList_intercalate, List.map_map, hpieces]
    exact intercalate_cut .top raw.toList
  · intro text htext
    rw [← List.map_dropLast] at htext
    obtain ⟨piece, hpiece, rfl⟩ := List.mem_map.mp htext
    rw [String.toList_ofList]
    exact hdivision.closed piece hpiece
  · intro text htext
    obtain ⟨piece, hpiece, rfl⟩ := List.mem_map.mp htext
    rw [String.toList_ofList]
    exact hdivision.whole piece hpiece

theorem Divides.all_eq (hraw : raw ≠ "") (h : Divides raw texts) :
    all raw = place 0 (texts.map String.toList) := by
  have hfull : raw.isEmpty = false := by
    rw [Bool.eq_false_iff, ne_eq, String.isEmpty_iff]
    exact hraw
  unfold all
  rw [hfull, h.cut_eq hraw]
  rfl

end Segment

/-! ## The calls of the evaluator -/

section Calls

variable {σ : Type} (evaluate : String → Option Int → Recorded σ Value) (id : Option Int)

/-- The evaluator, which also writes down what it is called on, and under which id. -/
def Recorded.noting (text : String) (id : Option Int) :
    Recorded (List (String × Option Int) × σ) Value := fun record =>
  let (outcome, r) := evaluate text id record.2
  (outcome, record.1 ++ [(text, id)], r)

/-- Called on the texts in order, the evaluator comes as far as `called`: to the end of the texts, or
to the first that it fails on. -/
inductive Calls : List String → σ → List String → Prop where
  | nil {r : σ} : Calls [] r []
  | failed {text : String} {texts : List String} {r r' : σ} {e : Error}
      (h : evaluate text id r = (.error e, r')) : Calls (text :: texts) r [text]
  | cons {text : String} {texts called : List String} {r r' : σ} {value : Value}
      (h : evaluate text id r = (.ok value, r')) (hrest : Calls texts r' called) :
      Calls (text :: texts) r (text :: called)

variable {evaluate id}

/-- The evaluator is called on each segment once, in order, up to the first that it fails on. -/
theorem calls_evaluateSegments (texts : List String) (start : Nat)
    (calls : List (String × Option Int)) (r : σ) :
    ∃ called, Calls evaluate id texts r called ∧
      evaluateSegments (Recorded.noting evaluate) id
          (Segment.place start (texts.map String.toList)) (calls, r) =
        ((evaluateSegments evaluate id (Segment.place start (texts.map String.toList)) r).1,
          calls ++ called.map fun text => (text, id),
          (evaluateSegments evaluate id (Segment.place start (texts.map String.toList)) r).2) := by
  induction texts generalizing start calls r with
  | nil => exact ⟨[], .nil, by simp [Segment.place, evaluateSegments]⟩
  | cons text texts ih =>
    have hsegment : String.ofList text.toList = text := String.ofList_toList
    simp only [List.map_cons, Segment.place, evaluateSegments, hsegment]
    rcases hrun : evaluate text id r with ⟨outcome, r'⟩
    have hplain : (evaluate text id).shifted start r = (outcome.mapError (·.shifted start), r') := by
      rw [Recorded.shifted, hrun]
    have hnoting : (Recorded.noting evaluate text id).shifted start (calls, r) =
        (outcome.mapError (·.shifted start), calls ++ [(text, id)], r') := by
      rw [Recorded.shifted, Recorded.noting, hrun]
    cases outcome with
    | error e =>
      refine ⟨[text], .failed hrun, ?_⟩
      rw [Recorded.bind_of_error hplain, Recorded.bind_of_error hnoting]
      rfl
    | ok value =>
      obtain ⟨called, hcalls, hrest⟩ :=
        ih (start + text.toList.length + 1) (calls ++ [(text, id)]) r'
      refine ⟨text :: called, .cons hrun hcalls, ?_⟩
      rw [Recorded.bind_of_ok hplain, Recorded.bind_of_ok hnoting]
      rcases hends : evaluateSegments evaluate id
        (Segment.place (start + text.toList.length + 1) (texts.map String.toList)) r' with
        ⟨ended, r''⟩
      rw [hends] at hrest
      cases ended with
      | error e =>
        rw [Recorded.bind_of_error hends, Recorded.bind_of_error hrest]
        simp
      | ok values =>
        rw [Recorded.bind_of_ok hends, Recorded.bind_of_ok hrest]
        simp

theorem Segment.Divides.splitArguments_eq {raw : String} {texts : List String} (hraw : raw ≠ "")
    (h : Segment.Divides raw texts) :
    splitArguments evaluate id (some raw) =
      evaluateSegments evaluate id (Segment.place 0 (texts.map String.toList)) :=
  congrArg (evaluateSegments evaluate id) (h.all_eq hraw)

/-- There is one way to divide a list at its separators on top. The texts of this division are
evaluated in order, each of them once and under the id, up to the first that fails, whose error is
moved to where the text stands. -/
theorem splitArguments_of_divides {raw : String} (hraw : raw ≠ "")
    (evaluate : String → Option Int → Recorded σ Value) (id : Option Int) :
    ∃ texts, Segment.Divides raw texts ∧
      (∀ texts', Segment.Divides raw texts' → texts' = texts) ∧
      InOrder evaluate id texts 0 (splitArguments evaluate id (some raw)) pure ∧
      ∀ calls r, ∃ called, Calls evaluate id texts r called ∧
        splitArguments (Recorded.noting evaluate) id (some raw) (calls, r) =
          ((splitArguments evaluate id (some raw) r).1,
            calls ++ called.map fun text => (text, id),
            (splitArguments evaluate id (some raw) r).2) := by
  have hdivides := Segment.divides_cut raw
  refine ⟨_, hdivides, fun texts' h' => hdivides.unique hraw h', ?_, ?_⟩
  · rw [hdivides.splitArguments_eq hraw]
    exact inOrder_place _ 0
  · intro calls r
    rw [hdivides.splitArguments_eq hraw, hdivides.splitArguments_eq hraw]
    exact calls_evaluateSegments _ 0 calls r

/-- Fails on an empty text, where it ends. -/
def refuseEmpty (text : String) (_ : Option Int) : Recorded Unit Value :=
  if text = "" then throw (.positioned (.reported "empty") 0 0) else pure (.text text)

/-- Of the four texts, the third is the first that fails. -/
theorem splitArguments_of_divides_empty :
    "f(1,2),'],',,4" ≠ "" ∧
      Segment.Divides "f(1,2),'],',,4" ["f(1,2)", "'],'", "", "4"] ∧
      (splitArguments (Recorded.noting refuseEmpty) (some 7) (some "f(1,2),'],',,4") ([], ())).2.1 =
        [("f(1,2)", some 7), ("'],'", some 7), ("", some 7)] ∧
      InOrder refuseEmpty (some 7) ["f(1,2)", "'],'", "", "4"] 0
        (splitArguments refuseEmpty (some 7) (some "f(1,2),'],',,4")) pure := by
  have hraw : "f(1,2),'],',,4" ≠ "" := by decide
  have hdivides : Segment.Divides "f(1,2),'],',,4" ["f(1,2)", "'],'", "", "4"] :=
    ⟨by decide, by decide, by decide⟩
  obtain ⟨texts, _, hunique, horder, _⟩ := splitArguments_of_divides hraw refuseEmpty (some 7)
  obtain rfl := hunique _ hdivides
  exact ⟨hraw, hdivides, by decide +kernel, horder⟩

end Calls

end Formula
