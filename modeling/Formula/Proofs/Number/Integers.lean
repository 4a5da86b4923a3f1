import Formula.Number.Whole
import Mathlib

/-! # Integers among the floats

A finite float is worth a rational number. Every integer of at most 53 bits is what some float is worth:
its nearest float is exact. Truncating a float that is worth an integer of 64 bits gives that integer.
-/

namespace Formula.Number

/-- What a float is worth, if it is finite. -/
def value? (x : Float) : Option ℚ :=
  match parts x with
  | .finite negative mantissa exponent =>
    some ((if negative then -1 else 1) * mantissa * 2 ^ exponent)
  | _ => none

/-- The float is worth an integer. Both zeros are worth zero. -/
def IsWorth (x : Float) (n : Int) : Prop :=
  value? x = some (n : ℚ)

theorem twoTo_eq (n : Nat) : twoTo n = 2 ^ n := rfl

/-! ## Bits -/

/-- Bits are kept by a float, unless they stand for what is not a number. -/
theorem toBits_ofBits {bits : UInt64} (h : bits.toNat / 2 ^ 52 % 2 ^ 11 ≠ 2047) :
    (Float.ofBits bits).toBits = bits := by
  have hnumber : @Float.Model.UnpackedFloat.isNaNBits .binary64 bits.toBitVec = false := by
    unfold Float.Model.UnpackedFloat.isNaNBits
    rw [decide_eq_false_iff_not]
    rintro ⟨hexponent, -⟩
    have hfield := congrArg BitVec.toNat hexponent
    rw [Float.Model.UnpackedFloat.unpackExponent_def, BitVec.extractLsb'_toNat,
      Nat.shiftRight_eq_div_pow] at hfield
    exact h hfield
  have hpack := @Float.Model.UnpackedFloat.pack_unpack .binary64 bits.toBitVec
  rw [hnumber] at hpack
  exact congrArg UInt64.ofBitVec hpack

theorem parts_ofBits {bits : Nat} (hbits : bits < 2 ^ 64) (h : bits / 2 ^ 52 % 2 ^ 11 ≠ 2047) :
    parts (Float.ofBits (UInt64.ofNat bits)) = Parts.ofBits bits := by
  have hnat : (UInt64.ofNat bits).toNat = bits := by
    rw [UInt64.toNat_ofNat']
    exact Nat.mod_eq_of_lt hbits
  unfold parts
  rw [toBits_ofBits (by rwa [hnat]), hnat]

/-- What bits stand for whose exponent field is neither all zeros nor all ones. -/
theorem Parts.ofBits_eq {bits field fraction : Nat} {negative : Bool}
    (hsign : bits / 2 ^ 63 % 2 = negative.toNat) (hexponent : bits / 2 ^ 52 % 2 ^ 11 = field)
    (hrest : bits % 2 ^ 52 = fraction) (hpos : 0 < field) (hfield : field < 2047) :
    Parts.ofBits bits = .finite negative (2 ^ 52 + fraction) (field - 1075) := by
  simp only [Parts.ofBits, twoTo_eq, hsign, hexponent, hrest, if_neg (Nat.ne_of_lt hfield),
    if_neg (Nat.ne_of_gt hpos)]
  cases negative with
  | true => rfl
  | false => rfl

/-- A float put together from its sign, its exponent field and its fraction. -/
theorem parts_of_fields (negative : Bool) {field fraction : Nat} (hpos : 0 < field)
    (hfield : field < 2047) (hfraction : fraction < 2 ^ 52) :
    parts (Float.ofBits (UInt64.ofNat
        ((if negative then twoTo 63 else 0) + (field * 2 ^ 52 + fraction)))) =
      .finite negative (2 ^ 52 + fraction) (field - 1075) := by
  have hsign : (if negative then twoTo 63 else 0) = negative.toNat * 2 ^ 63 := by
    cases negative with
    | true => rfl
    | false => rfl
  have hbit : negative.toNat < 2 := Bool.toNat_lt negative
  rw [hsign, parts_ofBits (by omega) (by omega)]
  exact Parts.ofBits_eq (by omega) (by omega) (by omega) hpos hfield

/-! ## The nearest float -/

/-- The mantissa of a number of at most 53 bits, shifted to 53 bits. -/
def leading (n : Nat) : Nat :=
  n * 2 ^ (52 - n.log2)

variable {n : Nat}

theorem log2_le_of_lt (h : n < 2 ^ 53) : n.log2 ≤ 52 := by
  by_cases hzero : n = 0
  · simp [hzero]
  · have hlog := (Nat.log2_lt hzero).mpr h
    omega

theorem leading_bounds (hpos : n ≠ 0) (h : n < 2 ^ 53) :
    2 ^ 52 ≤ leading n ∧ leading n < 2 ^ 53 := by
  have hlog := log2_le_of_lt h
  have hsplit : n.log2 + (52 - n.log2) = 52 := by omega
  constructor
  · calc 2 ^ 52 = 2 ^ n.log2 * 2 ^ (52 - n.log2) := by rw [← pow_add, hsplit]
      _ ≤ leading n := Nat.mul_le_mul_right _ (Nat.log2_self_le hpos)
  · calc leading n < 2 ^ (n.log2 + 1) * 2 ^ (52 - n.log2) :=
        Nat.mul_lt_mul_of_pos_right Nat.lt_log2_self (Nat.two_pow_pos _)
      _ = 2 ^ 53 := by rw [← pow_add]; congr 1; omega

/-- A number of at most 53 bits is scaled so that its mantissa is whole. -/
theorem unscale_of_lt (h : n < 2 ^ 53) :
    unscale n 1 ((n.log2 : Int) - 52) = (leading n, 1) := by
  have hlog := log2_le_of_lt h
  have hup : (-((n.log2 : Int) - 52)).toNat = 52 - n.log2 := by omega
  have hdown : ((n.log2 : Int) - 52).toNat = 0 := by omega
  simp only [unscale, hup, hdown, twoTo_eq, leading, pow_zero, mul_one]

theorem exponentOf_of_lt (hpos : n ≠ 0) (h : n < 2 ^ 53) :
    exponentOf n 1 = (n.log2 : Int) - 52 := by
  have hone : Nat.log2 1 = 0 := by decide
  have hlow := (leading_bounds hpos h).1
  have hnot : ¬ leading n < twoTo 52 * 1 := by
    rw [twoTo_eq, mul_one]
    omega
  simp only [exponentOf, hone, Nat.cast_zero, sub_zero, unscale_of_lt h, if_neg hnot]
  omega

theorem roundDiv_one (n : Nat) : roundDiv n 1 = n := by
  simp [roundDiv, Nat.mod_one]

/-- The bits of a number of at most 53 bits hold its exponent and all of its mantissa. -/
theorem nearestBits_of_lt (hpos : n ≠ 0) (h : n < 2 ^ 53) :
    nearestBits n 1 = (n.log2 + 1022) * 2 ^ 52 + leading n := by
  have hlog := log2_le_of_lt h
  have hhigh := (leading_bounds hpos h).2
  have hfield : ((n.log2 : Int) - 52 + 1074).toNat = n.log2 + 1022 := by omega
  simp only [nearestBits, if_neg hpos, exponentOf_of_lt hpos h, unscale_of_lt h, hfield,
    roundDiv_one, twoTo_eq]
  omega

/-- The nearest float to a number of at most 53 bits. -/
theorem parts_ofRatio_of_lt (negative : Bool) (hpos : n ≠ 0) (h : n < 2 ^ 53) :
    parts (ofRatio negative n 1) = .finite negative (leading n) ((n.log2 : Int) - 52) := by
  have hlog := log2_le_of_lt h
  obtain ⟨hlow, hhigh⟩ := leading_bounds hpos h
  -- the leading one of the mantissa is not among the bits: it counts the exponent up by one
  have hbits : nearestBits n 1 = (n.log2 + 1023) * 2 ^ 52 + (leading n - 2 ^ 52) := by
    rw [nearestBits_of_lt hpos h]
    omega
  have hmantissa : 2 ^ 52 + (leading n - 2 ^ 52) = leading n := by omega
  have hexponent : ((n.log2 + 1023 : Nat) : Int) - 1075 = (n.log2 : Int) - 52 := by
    push_cast
    omega
  unfold ofRatio
  rw [hbits, parts_of_fields negative (by omega) (by omega) (by omega), hmantissa, hexponent]

/-! ## Worth -/

/-- A finite float is worth an integer if its magnitude is the integer with the sign taken off. -/
theorem isWorth_iff {x : Float} {negative : Bool} {mantissa : Nat} {exponent : Int} {k : Int}
    (hparts : parts x = .finite negative mantissa exponent) :
    IsWorth x k ↔ (mantissa : ℚ) * 2 ^ exponent = (if negative then -k else k : Int) := by
  simp only [IsWorth, value?, hparts, Option.some.injEq]
  cases negative with
  | true =>
    simp only [if_true, neg_mul, one_mul, Int.cast_neg]
    exact neg_eq_iff_eq_neg
  | false => simp only [Bool.false_eq_true, if_false, one_mul]

theorem leading_mul (h : n < 2 ^ 53) : (leading n : ℚ) * 2 ^ ((n.log2 : Int) - 52) = n := by
  have hlog := log2_le_of_lt h
  have hexponent : (n.log2 : Int) - 52 = -((52 - n.log2 : Nat) : Int) := by omega
  rw [hexponent, zpow_neg, zpow_natCast, leading]
  push_cast
  field_simp

/-- The nearest float to an integer is exact if that has 53 bits at most, or is the next one in
magnitude. -/
theorem isWorth_ofInt {k : Int} (h : k.natAbs ≤ 2 ^ 53) : IsWorth (ofInt k) k := by
  have hmagnitude : (if decide (k < 0) then -k else k) = (k.natAbs : Int) := by
    simp only [decide_eq_true_eq]
    omega
  by_cases hzero : k = 0
  · have hparts : parts (ofInt 0) = .finite false 0 (-1074) := by decide +kernel
    rw [hzero, isWorth_iff hparts]
    simp
  by_cases hlarge : k.natAbs = 2 ^ 53
  · have hparts : parts (ofInt k) = .finite (k < 0) (2 ^ 52) 1 := by
      unfold ofInt
      rw [hlarge]
      cases decide (k < 0) with
      | true => decide +kernel
      | false => decide +kernel
    rw [isWorth_iff hparts, hmagnitude, hlarge]
    norm_num
  · have hlt : k.natAbs < 2 ^ 53 := by omega
    have hparts : parts (ofInt k) =
        .finite (k < 0) (leading k.natAbs) ((k.natAbs.log2 : Int) - 52) :=
      parts_ofRatio_of_lt _ (by omega) hlt
    rw [isWorth_iff hparts, hmagnitude, Int.cast_natCast]
    exact leading_mul hlt

/-! ## The integral part -/

/-- The integral part of what is whole is all of it. -/
theorem integerPart_eq {mantissa : Nat} {exponent : Int}
    (h : (mantissa : ℚ) * 2 ^ exponent = n) : integerPart mantissa exponent = n := by
  obtain ⟨k, rfl | rfl⟩ := exponent.eq_nat_or_neg
  · have hnat : mantissa * 2 ^ k = n := by
      rw [zpow_natCast] at h
      exact_mod_cast h
    simp [integerPart, twoTo_eq, hnat]
  · have hnat : mantissa = n * 2 ^ k := by
      rw [zpow_neg, zpow_natCast, ← div_eq_mul_inv, div_eq_iff (by positivity)] at h
      exact_mod_cast h
    simp [integerPart, twoTo_eq, hnat]

theorem clamp_eq {k : Int} (hlow : leastWord ≤ k) (hhigh : k ≤ greatestWord) : clamp k = k := by
  unfold clamp
  omega

/-- What is worth an integer of 64 bits is truncated to it. -/
theorem truncate_of_isWorth {x : Float} {k : Int} (h : IsWorth x k) (hlow : leastWord ≤ k)
    (hhigh : k ≤ greatestWord) : truncate x = k := by
  cases hparts : parts x with
  | nan => simp [IsWorth, value?, hparts] at h
  | infinite negative => simp [IsWorth, value?, hparts] at h
  | finite negative mantissa exponent =>
    have hmagnitude := (isWorth_iff hparts).mp h
    have hnonneg : 0 ≤ (if negative then -k else k) := by
      have hcast : (0 : ℚ) ≤ (if negative then -k else k : Int) := hmagnitude ▸ by positivity
      exact_mod_cast hcast
    obtain ⟨n, hn⟩ := Int.eq_ofNat_of_zero_le hnonneg
    rw [hn, Int.cast_natCast] at hmagnitude
    unfold truncate
    rw [hparts]
    cases negative with
    | true =>
      have hk : -(n : Int) = k := neg_eq_iff_eq_neg.mpr (Eq.symm hn)
      show clamp (-(integerPart mantissa exponent : Int)) = k
      rw [integerPart_eq hmagnitude, hk, clamp_eq hlow hhigh]
    | false =>
      have hk : (n : Int) = k := Eq.symm hn
      show clamp (integerPart mantissa exponent) = k
      rw [integerPart_eq hmagnitude, hk, clamp_eq hlow hhigh]

end Formula.Number
