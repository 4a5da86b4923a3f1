import Formula.Proofs.Place
import Formula.Proofs.Recorded
import Mathlib.Data.List.Forall2

/-! # Segments and their places

Cutting loses nothing but the separators, so every segment stands where it is placed, and an error
that is exact in its segment is exact in the list.
-/

namespace Formula

namespace Segment

/-! ## Cutting -/

theorem cut_ne_nil (t : Nesting) (cs : List Char) : cut t cs ≠ [] := by
  induction cs generalizing t with
  | nil => simp [cut]
  | cons c cs ih =>
    simp only [cut]
    split
    · simp
    · intro hnil
      have hlength := congrArg List.length hnil
      rw [List.length_modifyHead] at hlength
      exact ih _ (List.length_eq_zero_iff.mp hlength)

/-- The pieces with the separators between them are the text. -/
theorem intercalate_cut (t : Nesting) (cs : List Char) :
    [separator].intercalate (cut t cs) = cs := by
  induction cs generalizing t with
  | nil => rfl
  | cons c cs ih =>
    have hrest := ih (t.advance c)
    simp only [cut]
    cases hcut : cut (t.advance c) cs with
    | nil => exact absurd hcut (cut_ne_nil _ _)
    | cons piece pieces =>
      rw [hcut] at hrest
      split
      · -- the separator ends an empty piece
        rename_i hseparates
        rw [List.intercalate_cons_cons, hrest, hseparates.1]
        rfl
      · -- the character becomes the first of the first piece
        cases pieces with
        | nil =>
          simp only [List.modifyHead_cons, List.intercalate_singleton] at hrest ⊢
          rw [hrest]
        | cons next pieces =>
          simp only [List.modifyHead_cons, List.intercalate_cons_cons, List.cons_append] at hrest ⊢
          rw [hrest]

/-! ## Placing -/

/-- A piece stands where it is placed. -/
theorem standsAt_of_mem_place {start : Nat} {pieces : List (List Char)} {segment : Segment}
    (h : segment ∈ place start pieces) :
    ∃ offset, segment.start = start + offset ∧
      StandsAt ([separator].intercalate pieces) offset segment.text.toList := by
  induction pieces generalizing start with
  | nil => cases h
  | cons piece pieces ih =>
    rcases List.mem_cons.mp h with rfl | hmem
    · refine ⟨0, rfl, [], ?_⟩
      cases pieces with
      | nil => exact ⟨[], by simp, rfl⟩
      | cons next pieces =>
        exact ⟨separator :: [separator].intercalate (next :: pieces), by simp, rfl⟩
    · rcases ih hmem with ⟨offset, hstart, hstands⟩
      cases pieces with
      | nil => cases hmem
      | cons next pieces =>
        -- the other pieces stand behind the first and its separator
        have htail : StandsAt ([separator].intercalate (piece :: next :: pieces))
            (piece.length + 1) ([separator].intercalate (next :: pieces)) := by
          refine ⟨piece ++ [separator], [], ?_, by simp⟩
          simp [List.intercalate_cons_cons]
        exact ⟨offset + (piece.length + 1), by omega, htail.trans hstands⟩

/-- A segment of a list stands where it begins. -/
theorem standsAt_of_mem_all {raw : String} {segment : Segment} (h : segment ∈ all raw) :
    StandsAt raw.toList segment.start segment.text.toList := by
  unfold all at h
  split at h
  · cases h
  · rcases standsAt_of_mem_place h with ⟨offset, hstart, hstands⟩
    rw [intercalate_cut] at hstands
    rw [hstart, Nat.zero_add]
    exact hstands

/-- Pieces that are related have segments that are, at places that are. -/
theorem forall₂_place {R : List Char → List Char → Prop} {Placed : Nat → Nat → Prop}
    {pieces pieces' : List (List Char)}
    (hplaced : ∀ {piece piece' start start'}, R piece piece' → Placed start start' →
      Placed (start + piece.length + 1) (start' + piece'.length + 1))
    (h : List.Forall₂ R pieces pieces') (start start' : Nat) (hstart : Placed start start') :
    List.Forall₂ (fun segment segment' => R segment.text.toList segment'.text.toList ∧
        Placed segment.start segment'.start) (place start pieces) (place start' pieces') := by
  induction h generalizing start start' with
  | nil => exact .nil
  | @cons piece piece' pieces pieces' hpiece _ ih =>
    refine .cons ⟨?_, hstart⟩ (ih _ _ (hplaced hpiece hstart))
    rw [String.toList_ofList, String.toList_ofList]
    exact hpiece

end Segment

/-! ## Errors in segments -/

variable {σ : Type} {evaluate : String → Option Int → Recorded σ Value} {id : Option Int}

/-- An error in one of the segments of a text is exact in the text if it is in the segment. -/
theorem exactIn_of_evaluateSegments {text : List Char} {segments : List Segment}
    (hsegments : ∀ segment ∈ segments, StandsAt text segment.start segment.text.toList)
    (hevaluate : ∀ (piece : String) (r : σ) (e : Error), (evaluate piece id r).1 = .error e →
      e.ExactIn piece.toList) {r : σ} {e : Error}
    (h : (evaluateSegments evaluate id segments r).1 = .error e) : e.ExactIn text := by
  induction segments generalizing r with
  | nil => cases h
  | cons segment rest ih =>
    rcases Recorded.bind_eq_error h with hfirst | ⟨value, r', _, hbehind⟩
    · rcases Recorded.shifted_eq_error hfirst with ⟨e', he', rfl⟩
      exact (hevaluate _ _ _ he').shifted (hsegments segment List.mem_cons_self)
    · rcases Recorded.bind_eq_error hbehind with hrest | ⟨values, r'', _, hpure⟩
      · exact ih (fun s hs => hsegments s (List.mem_cons_of_mem _ hs)) hrest
      · cases hpure

theorem exactIn_of_splitArguments {raw : String}
    (hevaluate : ∀ (piece : String) (r : σ) (e : Error), (evaluate piece id r).1 = .error e →
      e.ExactIn piece.toList) {r : σ} {e : Error}
    (h : (splitArguments evaluate id (some raw) r).1 = .error e) : e.ExactIn raw.toList :=
  exactIn_of_evaluateSegments (fun _ => Segment.standsAt_of_mem_all) hevaluate h

end Formula
