import Formula.Proofs.Number.Words
import Formula.Proofs.Operator.Tables

/-! # Operators on words

The bitwise operators and the shifts cut their operands to words and go back to the nearest float. On
integers below 2 ^ 53 nothing is lost on the way there, and nothing on the way back: what works bit by
bit stays within that bound, and so do a complement and a right shift. Only a left shift may leave what
is exact.
-/

namespace Formula

open Number (IsWorth InBits)

/-- The outcome is a number, and worth exactly `n`. -/
def ComesTo (outcome : Except Error Value) (n : Int) : Prop :=
  ∃ z, outcome = .ok (.number z) ∧ IsWorth z n

variable {x y : Float} {a b c : Int}

/-- An operator on words is exact if the word it makes is an exact integer. -/
theorem InfixOp.comesTo_of_words (op : InfixOp) {f : Int64 → Int64 → Int64}
    (hop : op.arithmetic? = some (Number.onWords f)) (hx : IsWorth x a) (hy : IsWorth y b)
    (ha : InBits 53 a) (hb : InBits 53 b) (hword : (f (Int64.ofInt a) (Int64.ofInt b)).toInt = c)
    (hc : c.natAbs ≤ 2 ^ 53) : ComesTo (op.apply (.number x) (.number y)) c := by
  refine ⟨_, apply_numbers_of_arithmetic hop x y, ?_⟩
  rw [Number.onWords, Number.toWord_of_isWorth hx ha.word, Number.toWord_of_isWorth hy hb.word]
  exact Number.isWorth_ofWord hword hc

/-- An operator that works bit by bit is exact. -/
theorem InfixOp.comesTo_of_bits (op : InfixOp) {f : Int64 → Int64 → Int64}
    {g : Int → Int → Int} {bit : Bool → Bool → Bool}
    (hop : op.arithmetic? = some (Number.onWords f))
    (hword : ∀ v w i,
      (f v w).toBitVec.getLsbD i = bit (v.toBitVec.getLsbD i) (w.toBitVec.getLsbD i))
    (hbits : ∀ a b i, (g a b).testBit i = bit (a.testBit i) (b.testBit i))
    (hx : IsWorth x a) (hy : IsWorth y b) (ha : InBits 53 a) (hb : InBits 53 b) :
    ComesTo (op.apply (.number x) (.number y)) (g a b) := by
  have hresult : InBits 53 (g a b) := InBits.bitwise hbits ha hb
  refine comesTo_of_words op hop hx hy ha hb ?_ hresult.natAbs_le
  rw [← Number.ofInt_bitwise hbits hword, Number.toInt_ofInt_of_inBits hresult.word]

theorem PrefixOp.comesTo_complement (op : PrefixOp)
    (hop : op.apply (.number x) = .ok (.number (Number.complement x))) (hx : IsWorth x a)
    (ha : InBits 53 a) : ComesTo (op.apply (.number x)) (-a - 1) := by
  refine ⟨_, hop, ?_⟩
  rw [Number.complement, Number.toWord_of_isWorth hx ha.word]
  refine Number.isWorth_ofWord (Number.toInt_complement ha.word) ?_
  obtain ⟨hlow, hhigh⟩ := ha
  omega

/-- The operators on words are exact on integers below 2 ^ 53 in magnitude: the bitwise ones come to
the result in two's complement, a right shift divides and rounds down, and a left shift multiplies if
the product is an exact integer. The count of a shift is taken modulo 64, from 0 to 63. -/
theorem wordOperators_exact (hx : IsWorth x a) (hy : IsWorth y b) (ha : a.natAbs < 2 ^ 53)
    (hb : b.natAbs < 2 ^ 53) :
    ComesTo (InfixOp.bitAnd.apply (.number x) (.number y)) (a.land b) ∧
    ComesTo (InfixOp.bitOr.apply (.number x) (.number y)) (a.lor b) ∧
    ComesTo (InfixOp.bitXor.apply (.number x) (.number y)) (a.xor b) ∧
    ComesTo (PrefixOp.not.apply (.number x)) (-a - 1) ∧
    ComesTo (PrefixOp.complement.apply (.number x)) (-a - 1) ∧
    ComesTo (InfixOp.shiftRight.apply (.number x) (.number y)) (a / 2 ^ (b % 64).toNat) ∧
    ((a * 2 ^ (b % 64).toNat).natAbs ≤ 2 ^ 53 →
      ComesTo (InfixOp.shiftLeft.apply (.number x) (.number y)) (a * 2 ^ (b % 64).toNat)) := by
  have ha : InBits 53 a := Number.inBits_of_natAbs_lt ha
  have hb : InBits 53 b := Number.inBits_of_natAbs_lt hb
  have hand := InfixOp.comesTo_of_bits .bitAnd rfl (fun v w i => BitVec.getLsbD_and)
    Int.testBit_land hx hy ha hb
  have hor := InfixOp.comesTo_of_bits .bitOr rfl (fun v w i => BitVec.getLsbD_or)
    Int.testBit_lor hx hy ha hb
  have hxor := InfixOp.comesTo_of_bits .bitXor rfl (fun v w i => BitVec.getLsbD_xor)
    Int.testBit_lxor hx hy ha hb
  have hright := InfixOp.comesTo_of_words .shiftRight rfl hx hy ha hb
    (Number.toInt_shiftRight ha.word hb.word) (ha.div_two_pow _).natAbs_le
  refine ⟨hand, hor, hxor, PrefixOp.comesTo_complement .not rfl hx ha,
    PrefixOp.comesTo_complement .complement rfl hx ha, hright, fun hproduct => ?_⟩
  refine InfixOp.comesTo_of_words .shiftLeft rfl hx hy ha hb ?_ hproduct
  have hword : InBits 63 (a * 2 ^ (b % 64).toNat) := ⟨by omega, by omega⟩
  rw [Number.shiftLeft_ofInt hb.word, Number.toInt_ofInt_of_inBits hword]

/-- A count of -61 is a count of 3. -/
theorem wordOperators_exact_negative_count :
    let x : Value := .number (Number.ofInt 5)
    let y : Value := .number (Number.ofInt (-61))
    ComesTo (InfixOp.bitXor.apply x y) (-58) ∧ ComesTo (InfixOp.shiftLeft.apply x y) 40 := by
  have hx : IsWorth (Number.ofInt 5) 5 := Number.isWorth_ofInt (by decide)
  have hy : IsWorth (Number.ofInt (-61)) (-61) := Number.isWorth_ofInt (by decide)
  obtain ⟨-, -, hxor, -, -, -, hshift⟩ := wordOperators_exact hx hy (by decide) (by decide)
  exact ⟨hxor, hshift (by decide)⟩

end Formula
