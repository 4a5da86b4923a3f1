import Formula.Error

/-! # Places in a text

A piece stands at a place of a text if so many characters come before it. An error is exact in a text
if it is about a piece that stands where it says, and if the message names a piece, about that one.
Exactness is kept when the text is part of another and the error moves with it.
-/

namespace Formula

/-- `piece` is part of the text, with `offset` characters before it. -/
def StandsAt (text : List Char) (offset : Nat) (piece : List Char) : Prop :=
  ∃ before after, text = before ++ (piece ++ after) ∧ before.length = offset

namespace StandsAt

variable {text piece : List Char} {offset : Nat}

theorem length_le (h : StandsAt text offset piece) : offset + piece.length ≤ text.length := by
  rcases h with ⟨before, after, htext, hbefore⟩
  rw [htext, List.length_append, List.length_append]
  omega

/-- What is cut out of the text at the place of a piece is the piece. -/
theorem take_drop (h : StandsAt text offset piece) :
    (text.drop offset).take piece.length = piece := by
  rcases h with ⟨before, after, htext, hbefore⟩
  rw [htext, ← hbefore, List.drop_left, List.take_left]

/-- What stands behind the start of a piece is the piece, character by character. -/
theorem getElem? {i : Nat} (h : StandsAt text offset piece) (hi : i < piece.length) :
    text[offset + i]? = piece[i]? := by
  obtain ⟨before, after, htext, hbefore⟩ := h
  rw [htext, ← hbefore, List.getElem?_append_right (Nat.le_add_right _ _), Nat.add_sub_cancel_left,
    List.getElem?_append_left hi]

/-- A part of a part is part of the whole. -/
theorem trans {inner : List Char} {distance : Nat} (h : StandsAt text distance piece)
    (hinner : StandsAt piece offset inner) : StandsAt text (offset + distance) inner := by
  rcases h with ⟨before, after, htext, hbefore⟩
  rcases hinner with ⟨before', after', hpiece, hbefore'⟩
  refine ⟨before ++ before', after' ++ after, ?_, ?_⟩
  · rw [htext, hpiece]
    simp only [List.append_assoc]
  · rw [List.length_append]
    omega

end StandsAt

/-- There is a piece at every place that does not reach beyond the text. -/
theorem exists_standsAt {text : List Char} {offset length : Nat}
    (h : offset + length ≤ text.length) :
    ∃ piece, StandsAt text offset piece ∧ piece.length = length := by
  refine ⟨(text.drop offset).take length, ?_, ?_⟩
  · refine ⟨text.take offset, (text.drop offset).drop length, ?_, ?_⟩
    · rw [List.take_append_drop, List.take_append_drop]
    · rw [List.length_take]
      omega
  · rw [List.length_take, List.length_drop]
    omega

/-! ## Exact errors -/

/-- The fault is about this piece of the text, so far as its message names it. -/
def Fault.About : Fault → List Char → Prop
  | .unknownIdentifier name, piece => piece = name.toList
  | .functionNotCalled name, piece => piece = name.toList
  | .unexpectedCharacter c, piece => piece = [c]
  | .reported _, _ => False
  | _, _ => True

/-- An error with a place is about a piece that stands there. -/
def Error.ExactIn (text : List Char) : Error → Prop
  | .positioned fault offset length =>
    ∃ piece, StandsAt text offset piece ∧ piece.length = length ∧ fault.About piece
  | _ => True

/-- A fault that names nothing is exact wherever it does not reach beyond the text. -/
theorem exactIn_of_le {text : List Char} {fault : Fault} {offset length : Nat}
    (hfault : ∀ piece, fault.About piece) (h : offset + length ≤ text.length) :
    (Error.positioned fault offset length).ExactIn text := by
  rcases exists_standsAt h with ⟨piece, hstands, hlength⟩
  exact ⟨piece, hstands, hlength, hfault piece⟩

/-- An error that is exact in a part of a text, moved to where the part stands, is exact in the
text. -/
theorem Error.ExactIn.shifted {text piece : List Char} {distance : Nat} {e : Error}
    (h : e.ExactIn piece) (hpiece : StandsAt text distance piece) :
    (e.shifted distance).ExactIn text := by
  cases e with
  | positioned fault offset length =>
    rcases h with ⟨inner, hinner, hlength, habout⟩
    exact ⟨inner, hpiece.trans hinner, hlength, habout⟩
  | _ => trivial

/-! ## Messages -/

/-- The message names `x` as a piece of the text. -/
def Fault.Names (fault : Fault) (x : String) : Prop :=
  fault.message = "Unknown identifier '" ++ x ++ "'" ∨
    fault.message = "Function '" ++ x ++ "' must be followed by '('" ∨
    fault.message = "Unexpected character '" ++ x ++ "'"

/-- No two kinds of faults have a message in common, so the piece a message names is the one the fault
is about. -/
theorem Fault.About.eq_of_names {fault : Fault} {piece : List Char} {x : String}
    (h : fault.About piece) (hnames : fault.Names x) : piece = x.toList := by
  -- `delta` instead of `simp`, which would have to generate the equations of `message`
  rcases hnames with hmessage | hmessage | hmessage
  · have hlist := congrArg String.toList hmessage
    cases fault with
    | unknownIdentifier name =>
      delta Fault.message at hlist
      have hname : name.toList = x.toList := by simpa using hlist
      rw [← hname]
      exact h
    | reported message => exact h.elim
    | _ =>
      delta Fault.message at hlist
      simp at hlist
  · have hlist := congrArg String.toList hmessage
    cases fault with
    | functionNotCalled name =>
      delta Fault.message at hlist
      have hname : name.toList = x.toList := by simpa using hlist
      rw [← hname]
      exact h
    | reported message => exact h.elim
    | _ =>
      delta Fault.message at hlist
      simp at hlist
  · have hlist := congrArg String.toList hmessage
    cases fault with
    | unexpectedCharacter c =>
      delta Fault.message at hlist
      have hname : c :: ['\''] = x.toList ++ ['\''] := by simpa using hlist
      have hpiece : piece = [c] := h
      rw [hpiece]
      exact List.append_cancel_right hname
    | reported message => exact h.elim
    | _ =>
      delta Fault.message at hlist
      simp at hlist

end Formula
