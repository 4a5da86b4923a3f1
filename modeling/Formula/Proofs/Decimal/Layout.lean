import Formula.Decimal.Layout
import Formula.Proofs.Text.Classes
import Formula.Proofs.Token.Scan
import Mathlib.Tactic.SplitIfs

/-! # Numerals

However a finite float is laid out, its text is a numeral, behind a minus if it is negative: it begins
with a digit, and holds digits, points, signs and exponent marks only. What is not finite is written as
the words of the layout.
-/

namespace Formula.Decimal

open Scan (IsNumeric)

/-- Characters of numbers, of which the first is a digit. -/
structure Numeral (cs : List Char) : Prop where
  head : ∃ c rest, cs = c :: rest ∧ isDigit c = true
  all : ∀ c ∈ cs, IsNumeric c

namespace Numeral

variable {cs ds : List Char}

/-- Digits are a numeral. -/
theorem of_digits (hne : ds ≠ []) (h : ∀ c ∈ ds, isDigit c = true) : Numeral ds := by
  obtain ⟨c, rest, rfl⟩ := List.exists_cons_of_ne_nil hne
  exact ⟨⟨c, rest, rfl, h c List.mem_cons_self⟩, fun d hd => Or.inl (h d hd)⟩

/-- What may stand in a numeral may follow one. -/
theorem append (h : Numeral cs) (hall : ∀ c ∈ ds, IsNumeric c) : Numeral (cs ++ ds) := by
  obtain ⟨c, rest, rfl, hdigit⟩ := h.head
  exact ⟨⟨c, rest ++ ds, rfl, hdigit⟩, List.forall_mem_append.mpr ⟨h.all, hall⟩⟩

end Numeral

theorem isDigit_of_mem_digitsOf {n : Nat} {c : Char} (h : c ∈ digitsOf n) : isDigit c = true :=
  Nat.isDigit_of_mem_toDigits (by decide) (by decide) h

theorem numeral_digitsOf (n : Nat) : Numeral (digitsOf n) :=
  .of_digits Nat.toDigits_ne_nil fun _ => isDigit_of_mem_digitsOf

variable {digits : List Char} {tail : String}

theorem isNumeric_of_mem_zeros {n : Nat} {c : Char} (h : c ∈ List.replicate n '0') :
    IsNumeric c := by
  rw [List.eq_of_mem_replicate h]
  exact Or.inl (by decide)

/-- The point goes behind the digits, between them, or in front of them behind a zero. -/
theorem numeral_placePoint (hne : digits ≠ []) (hdigits : ∀ c ∈ digits, isDigit c = true)
    (htail : ∀ c ∈ tail.toList, IsNumeric c) (point : Int) :
    Numeral (placePoint tail digits point) := by
  have hnumeric : ∀ c ∈ digits, IsNumeric c := fun c hc => Or.inl (hdigits c hc)
  unfold placePoint
  split_ifs with hwhole hpos
  · exact ((Numeral.of_digits hne hdigits).append fun _ => isNumeric_of_mem_zeros).append htail
  · have hfront : digits.take point.toNat ≠ [] := by
      rw [ne_eq, List.take_eq_nil_iff]
      rintro (h | h)
      · omega
      · exact hne h
    refine (Numeral.of_digits hfront fun c hc => hdigits c (List.mem_of_mem_take hc)).append ?_
    exact List.forall_mem_cons.mpr
      ⟨.inr (by decide), fun c hc => hnumeric c (List.mem_of_mem_drop hc)⟩
  · have hzero : Numeral ['0', '.'] := ⟨⟨'0', ['.'], rfl, by decide⟩, by simp [IsNumeric, isDigit]⟩
    exact (hzero.append fun _ => isNumeric_of_mem_zeros).append hnumeric

theorem numeral_withExponent (hne : digits ≠ []) (hdigits : ∀ c ∈ digits, isDigit c = true)
    (exponent : Int) : Numeral (withExponent digits exponent) := by
  obtain ⟨c, rest, rfl⟩ := List.exists_cons_of_ne_nil hne
  have hfraction : ∀ d ∈ (if rest.isEmpty then [] else '.' :: rest), IsNumeric d := by
    split
    · exact fun d hd => absurd hd List.not_mem_nil
    · exact List.forall_mem_cons.mpr
        ⟨.inr (by decide), fun d hd => Or.inl (hdigits d (List.mem_cons_of_mem c hd))⟩
  have hsign : IsNumeric (if exponent < 0 then '-' else '+') := by
    split
    · exact .inr (by decide)
    · exact .inr (by decide)
  have hfirst : Numeral [c] := .of_digits (List.cons_ne_nil _ _) fun d hd =>
    hdigits d (by rw [List.mem_singleton.mp hd]; exact List.mem_cons_self)
  refine (hfirst.append hfraction).append (List.forall_mem_cons.mpr ⟨.inr (by decide), ?_⟩)
  exact List.forall_mem_cons.mpr ⟨hsign, (numeral_digitsOf _).all⟩

namespace Layout

variable {layout : Layout} (htail : ∀ c ∈ layout.wholeTail.toList, IsNumeric c)

include htail

theorem numeral_writeScaled (d : Scaled) : Numeral (layout.writeScaled d) := by
  have hne : digitsOf d.digits ≠ [] := Nat.toDigits_ne_nil
  have hdigits : ∀ c ∈ digitsOf d.digits, isDigit c = true := fun _ => isDigit_of_mem_digitsOf
  unfold writeScaled
  dsimp only
  split_ifs
  · exact numeral_placePoint hne hdigits htail _
  · exact numeral_withExponent hne hdigits _

/-- The text of a finite float is a numeral, behind a minus or not. -/
theorem write_of_isFinite {x : Float} (h : Number.isFinite x = true) :
    ∃ (negative : Bool) (cs : List Char), Numeral cs ∧
      (layout.write x).toList = if negative then '-' :: cs else cs := by
  unfold Number.isFinite at h
  unfold write
  cases hparts : Number.parts x with
  | nan => simp [hparts] at h
  | infinite negative => simp [hparts] at h
  | finite negative mantissa exponent =>
    refine ⟨negative, if mantissa = 0 then placePoint layout.wholeTail ['0'] 1
      else layout.writeScaled (shortest layout.tie mantissa exponent), ?_, String.toList_ofList⟩
    split
    · exact numeral_placePoint (List.cons_ne_nil _ _) (forall_mem_of_all (by decide)) htail 1
    · exact numeral_writeScaled htail _

end Layout

end Formula.Decimal
