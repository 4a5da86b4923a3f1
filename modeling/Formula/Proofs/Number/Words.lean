import Formula.Proofs.Number.Integers

/-! # Integers as machine words

An integer is kept by a word of 64 bits if it fits. Its bits in two's complement are the bits of the
word, so what works on words bit by bit works so on integers, and leaves the range of the operands
closed. A left shift multiplies, a right shift divides and rounds down, and both take the count
modulo 64.
-/

namespace Formula.Number

variable {a b k : Int} {n : Nat}

/-! ## Bits of integers -/

/-- The integers that `n` bits and a sign hold. -/
def InBits (n : Nat) (k : Int) : Prop :=
  -2 ^ n ≤ k ∧ k < 2 ^ n

theorem inBits_of_natAbs_lt (h : k.natAbs < 2 ^ 53) : InBits 53 k := by
  constructor
  · omega
  · omega

namespace InBits

theorem natAbs_le (h : InBits 53 k) : k.natAbs ≤ 2 ^ 53 := by
  obtain ⟨hlow, hhigh⟩ := h
  omega

theorem word (h : InBits 53 k) : InBits 63 k := by
  obtain ⟨hlow, hhigh⟩ := h
  constructor
  · omega
  · omega

/-- Division by a power of two, rounded down, takes no more bits. -/
theorem div_two_pow (h : InBits n k) (count : Nat) : InBits n (k / 2 ^ count) := by
  obtain ⟨hlow, hhigh⟩ := h
  have hpos : (0 : Int) < 2 ^ count := by positivity
  have hbound : (0 : Int) < 2 ^ n := by positivity
  constructor
  · refine (Int.le_ediv_iff_mul_le hpos).mpr ?_
    nlinarith
  · refine (Int.ediv_lt_iff_lt_mul hpos).mpr ?_
    nlinarith

end InBits

/-- The bits of a natural number are zero from some place on. -/
theorem testBit_of_lt {m i : Nat} (h : m < 2 ^ n) (hi : n ≤ i) : m.testBit i = false :=
  Nat.testBit_lt_two_pow (h.trans_le (Nat.pow_le_pow_right (by decide) hi))

/-- What `n` bits and a sign hold repeats one bit from place `n` on: its sign. -/
theorem inBits_iff : InBits n k ↔ ∃ sign, ∀ i, n ≤ i → k.testBit i = sign := by
  cases k with
  | ofNat m =>
    have hrange : InBits n (Int.ofNat m) ↔ m < 2 ^ n := by
      rw [InBits, Int.ofNat_eq_natCast]
      constructor
      · rintro ⟨-, h⟩
        exact_mod_cast h
      · intro h
        have hcast : (m : Int) < 2 ^ n := by exact_mod_cast h
        have hpos : (0 : Int) < 2 ^ n := by positivity
        omega
    rw [hrange]
    constructor
    · intro h
      exact ⟨false, fun i hi => testBit_of_lt h hi⟩
    · rintro ⟨sign, hsign⟩
      have hfalse : sign = false := by
        rw [← hsign (max n m) (Nat.le_max_left ..)]
        exact testBit_of_lt Nat.lt_two_pow_self (Nat.le_max_right ..)
      subst hfalse
      exact Nat.lt_pow_two_of_testBit m hsign
  | negSucc m =>
    have hrange : InBits n (Int.negSucc m) ↔ m < 2 ^ n := by
      rw [InBits, Int.negSucc_eq]
      constructor
      · rintro ⟨h, -⟩
        have hcast : (m : Int) < 2 ^ n := by omega
        exact_mod_cast hcast
      · intro h
        have hcast : (m : Int) < 2 ^ n := by exact_mod_cast h
        have hpos : (0 : Int) < 2 ^ n := by positivity
        omega
    have hbit (i : Nat) : (Int.negSucc m).testBit i = !m.testBit i := rfl
    rw [hrange]
    constructor
    · intro h
      refine ⟨true, fun i hi => ?_⟩
      rw [hbit, testBit_of_lt h hi, Bool.not_false]
    · rintro ⟨sign, hsign⟩
      have htrue : sign = true := by
        rw [← hsign (max n m) (Nat.le_max_left ..), hbit,
          testBit_of_lt Nat.lt_two_pow_self (Nat.le_max_right ..), Bool.not_false]
      subst htrue
      exact Nat.lt_pow_two_of_testBit m fun i hi => by simpa [hbit] using hsign i hi

/-- An operation that works bit by bit stays within the bits of its operands. -/
theorem InBits.bitwise {f : Int → Int → Int} {g : Bool → Bool → Bool}
    (hbits : ∀ a b i, (f a b).testBit i = g (a.testBit i) (b.testBit i)) (ha : InBits n a)
    (hb : InBits n b) : InBits n (f a b) := by
  obtain ⟨left, hleft⟩ := inBits_iff.mp ha
  obtain ⟨right, hright⟩ := inBits_iff.mp hb
  refine inBits_iff.mpr ⟨g left right, fun i hi => ?_⟩
  rw [hbits, hleft i hi, hright i hi]

/-! ## Bits of words -/

/-- The bits of a word are the bits of the integer it is made of. -/
theorem getLsbD_ofInt (k : Int) {w i : Nat} (hi : i < w) :
    (BitVec.ofInt w k).getLsbD i = k.testBit i := by
  cases k with
  | ofNat m =>
    rw [Int.ofNat_eq_natCast, BitVec.ofInt_natCast, BitVec.getLsbD_ofNat, decide_eq_true hi,
      Bool.true_and]
    rfl
  | negSucc m =>
    rw [BitVec.ofInt_negSucc_eq_not_ofNat, BitVec.getLsbD_not, BitVec.getLsbD_ofNat,
      decide_eq_true hi, Bool.true_and, Bool.true_and]
    rfl

/-- An operation on words does bit by bit what an operation on integers does. -/
theorem ofInt_bitwise {f : Int → Int → Int} {g : Bool → Bool → Bool}
    {op : Int64 → Int64 → Int64}
    (hbits : ∀ a b i, (f a b).testBit i = g (a.testBit i) (b.testBit i))
    (hop : ∀ x y i,
      (op x y).toBitVec.getLsbD i = g (x.toBitVec.getLsbD i) (y.toBitVec.getLsbD i)) :
    Int64.ofInt (f a b) = op (Int64.ofInt a) (Int64.ofInt b) := by
  refine Int64.toBitVec_inj.mp (BitVec.eq_of_getLsbD_eq fun i hi => ?_)
  rw [hop, Int64.toBitVec_ofInt, Int64.toBitVec_ofInt, Int64.toBitVec_ofInt, getLsbD_ofInt _ hi,
    getLsbD_ofInt _ hi, getLsbD_ofInt _ hi, hbits]

/-! ## Words -/

theorem toInt_ofInt_of_inBits (h : InBits 63 k) : (Int64.ofInt k).toInt = k :=
  Int64.toInt_ofInt_of_le h.1 h.2

theorem toInt_complement (h : InBits 63 a) : (~~~(Int64.ofInt a)).toInt = -a - 1 := by
  obtain ⟨hlow, hhigh⟩ := h
  rw [Int64.toInt_not, Int64.toInt_ofInt_of_le hlow hhigh, Int.bmod_eq_of_le (by omega) (by omega)]

/-- The count of a shift is taken modulo 64, a negative one too. -/
theorem toNat_smod_ofInt (h : InBits 63 k) :
    ((Int64.ofInt k).toBitVec.smod 64).toNat = (k % 64).toNat := by
  have hk : (Int64.ofInt k).toBitVec.toInt = k := toInt_ofInt_of_inBits h
  have hcount : ((Int64.ofInt k).toBitVec.smod 64).toInt = k % 64 := by
    rw [BitVec.toInt_smod, hk]
    exact Int.fmod_eq_emod_of_nonneg _ (by decide)
  rw [BitVec.toInt_eq_toNat_cond] at hcount
  split at hcount
  · omega
  · omega

theorem shiftLeft_ofInt (h : InBits 63 k) :
    Int64.ofInt a <<< Int64.ofInt k = Int64.ofInt (a * 2 ^ (k % 64).toNat) := by
  have hpower : BitVec.twoPow 64 (k % 64).toNat = BitVec.ofInt 64 (2 ^ (k % 64).toNat) := by
    have hcast : (2 ^ (k % 64).toNat : Int) = (2 ^ (k % 64).toNat : Nat) := by push_cast; rfl
    rw [hcast, BitVec.ofInt_natCast]
    refine BitVec.eq_of_toNat_eq ?_
    rw [BitVec.toNat_twoPow, BitVec.toNat_ofNat]
  refine Int64.toBitVec_inj.mp ?_
  rw [Int64.toBitVec_shiftLeft, BitVec.shiftLeft_eq', toNat_smod_ofInt h,
    BitVec.shiftLeft_eq_mul_twoPow, hpower, Int64.toBitVec_ofInt, Int64.toBitVec_ofInt,
    BitVec.ofInt_mul]

theorem toInt_shiftRight (ha : InBits 63 a) (hk : InBits 63 k) :
    (Int64.ofInt a >>> Int64.ofInt k).toInt = a / 2 ^ (k % 64).toNat := by
  have hword : (Int64.ofInt a).toBitVec.toInt = a := toInt_ofInt_of_inBits ha
  have hshift : (Int64.ofInt a >>> Int64.ofInt k).toInt =
      ((Int64.ofInt a).toBitVec.sshiftRight' ((Int64.ofInt k).toBitVec.smod 64)).toInt := rfl
  rw [hshift, BitVec.toInt_sshiftRight', hword, toNat_smod_ofInt hk, Int.shiftRight_eq_div_pow]
  norm_cast

/-! ## Words between floats -/

theorem toWord_of_isWorth {x : Float} (h : IsWorth x k) (hk : InBits 63 k) :
    toWord x = Int64.ofInt k := by
  obtain ⟨hlow, hhigh⟩ := hk
  have hleast : leastWord = -2 ^ 63 := rfl
  have hgreatest : greatestWord = 2 ^ 63 - 1 := rfl
  rw [toWord, truncate_of_isWorth h (by omega) (by omega)]

/-- A word goes back exactly if it is among the integers that are exact. -/
theorem isWorth_ofWord {w : Int64} (h : w.toInt = k) (hk : k.natAbs ≤ 2 ^ 53) :
    IsWorth (ofWord w) k := by
  rw [ofWord, h]
  exact isWorth_ofInt hk

end Formula.Number
