import Nachos.Lib.Word

/-!
# Bits of a word

Masks, fields, the sign bit, and what it says of sums, differences and shifts.
-/
namespace Word

variable {x y : BitVec 32} {i n : ℕ}

theorem and_twoPow_eq_zero (hi : i < 32) : x &&& BitVec.twoPow 32 i = 0 ↔ x.getLsbD i = false := by
  rw [BitVec.and_twoPow]
  cases h : x.getLsbD i with
  | false => simp
  | true =>
    simp only [if_true, Bool.true_eq_false, iff_false]
    intro hzero
    have hbit := congrArg (fun b => b.getLsbD i) hzero
    simp [hi] at hbit

theorem getLsbD_low (i : ℕ) : (0xffff : BitVec 32).getLsbD i = decide (i < 16) := by
  rw [show (0xffff : BitVec 32) = (BitVec.allOnes 16).setWidth 32 from rfl]
  simp only [BitVec.getLsbD_setWidth, BitVec.getLsbD_allOnes]
  grind

theorem getLsbD_high (i : ℕ) : (0xffff0000 : BitVec 32).getLsbD i = decide (16 ≤ i ∧ i < 32) := by
  rw [show (0xffff0000 : BitVec 32) = (BitVec.allOnes 16).setWidth 32 <<< 16 from rfl]
  simp only [BitVec.getLsbD_setWidth, BitVec.getLsbD_allOnes, BitVec.getLsbD_shiftLeft]
  grind

/-- A field of `n` bits, shifted down and masked. -/
theorem toNat_field (x : BitVec 32) (start n : ℕ) {mask : BitVec 32} (hmask : mask.toNat = 2 ^ n - 1) :
    (x >>> start &&& mask).toNat = (x.extractLsb' start n).toNat := by
  rw [BitVec.toNat_and, hmask, BitVec.extractLsb'_toNat, Nat.and_two_pow_sub_one_eq_mod]
  rfl

/-- The low half of a word, with its sign. -/
theorem extend_half (x : BitVec 32) :
    (if (x &&& 0xffff) &&& 0x8000 ≠ 0 then (x &&& 0xffff) ||| 0xffff0000 else x &&& 0xffff) =
      (x.extractLsb' 0 16).signExtend 32 := by
  have hsign : (x &&& 0xffff) &&& 0x8000 = 0 ↔ x.getLsbD 15 = false := by
    rw [show (0x8000 : BitVec 32) = BitVec.twoPow 32 15 from rfl, and_twoPow_eq_zero (by decide),
      BitVec.getLsbD_and, getLsbD_low]
    simp
  have hmsb : (x.extractLsb' 0 16).msb = x.getLsbD 15 := by
    simp [BitVec.msb_eq_getLsbD_last]
  apply BitVec.eq_of_getLsbD_eq
  intro i hi
  simp only [ne_eq, hsign, BitVec.getLsbD_signExtend, hmsb]
  cases h : x.getLsbD 15 with
  | false =>
    simp only [not_true_eq_false, if_false, BitVec.getLsbD_and, BitVec.getLsbD_extractLsb',
      getLsbD_low]
    by_cases hlow : i < 16 <;> simp [hi, hlow]
  | true =>
    simp only [Bool.true_eq_false, not_false_eq_true, if_true, BitVec.getLsbD_or,
      BitVec.getLsbD_and, BitVec.getLsbD_extractLsb', getLsbD_low, getLsbD_high]
    by_cases hlow : i < 16
    · have hhigh : ¬16 ≤ i := by omega
      simp [hi, hlow, hhigh]
    · have hhigh : 16 ≤ i := by omega
      simp [hi, hlow, hhigh]

/-- Masked again, the low half is without its sign. -/
theorem signExtend_and_low (h : BitVec 16) : h.signExtend 32 &&& 0xffff = h.setWidth 32 := by
  apply BitVec.eq_of_getLsbD_eq
  intro i hi
  simp only [BitVec.getLsbD_and, BitVec.getLsbD_signExtend, getLsbD_low, BitVec.getLsbD_setWidth]
  by_cases hlow : i < 16
  · simp [hi, hlow]
  · simp [hlow, BitVec.getLsbD_of_ge h i (by omega)]

theorem signExtend_shiftLeft (h : BitVec 16) : h.signExtend 32 <<< 16 = h ++ 0#16 := by
  apply BitVec.eq_of_getLsbD_eq
  intro i hi
  simp only [BitVec.getLsbD_shiftLeft, BitVec.getLsbD_signExtend, BitVec.getLsbD_append]
  by_cases hlow : i < 16
  · simp [hlow]
  · have hhigh : i - 16 < 16 := by omega
    have hword : i - 16 < 32 := by omega
    simp [hi, hlow, hhigh, hword]

theorem and_sign_eq_zero : x &&& 0x80000000 = 0 ↔ x.msb = false := by
  rw [show (0x80000000 : BitVec 32) = BitVec.twoPow 32 31 from rfl, and_twoPow_eq_zero (by decide),
    BitVec.msb_eq_getLsbD_last]

/-- The words have the same sign. -/
theorem xor_sign_eq_zero : (x ^^^ y) &&& 0x80000000 = 0 ↔ x.msb = y.msb := by
  rw [and_sign_eq_zero, BitVec.msb_xor]
  cases x.msb <;> cases y.msb <;> decide

theorem msb_eq_false_iff : x.msb = false ↔ 0 ≤ x.toInt := by
  have := toInt_toNat x
  rw [BitVec.msb_eq_false_iff_two_mul_lt]
  omega

/-- What a signed word can hold. -/
def Fits (z : ℤ) : Prop := -2 ^ 31 ≤ z ∧ z < 2 ^ 31

instance (z : ℤ) : Decidable (Fits z) := inferInstanceAs (Decidable (_ ∧ _))

theorem toInt_ofInt_of_fits {z : ℤ} (hz : Fits z) : (BitVec.ofInt 32 z).toInt = z := by
  obtain ⟨hlow, hhigh⟩ := hz
  rw [BitVec.toInt_ofInt]
  exact Int.bmod_eq_of_le (by omega) (by omega)

theorem add_eq_ofInt (x y : BitVec 32) : x + y = BitVec.ofInt 32 (x.toInt + y.toInt) := by
  rw [BitVec.ofInt_add, BitVec.ofInt_toInt, BitVec.ofInt_toInt]

theorem sub_eq_ofInt (x y : BitVec 32) : x - y = BitVec.ofInt 32 (x.toInt - y.toInt) := by
  rw [Int.sub_eq_add_neg, BitVec.ofInt_add, BitVec.ofInt_neg, BitVec.ofInt_toInt,
    BitVec.ofInt_toInt, BitVec.sub_eq_add_neg]

/-- Words of one sign have a sum of the other one. -/
theorem add_overflow_iff (x y : BitVec 32) :
    (x.msb = y.msb ∧ x.msb ≠ (x + y).msb) ↔ ¬Fits (x.toInt + y.toInt) := by
  have hx := toInt_toNat x
  have hy := toInt_toNat y
  simp only [Fits, BitVec.msb_eq_decide, Nat.reduceSub, BitVec.toNat_add, decide_eq_decide, ne_eq]
  omega

theorem sub_overflow_iff (x y : BitVec 32) :
    (x.msb ≠ y.msb ∧ x.msb ≠ (x - y).msb) ↔ ¬Fits (x.toInt - y.toInt) := by
  have hx := toInt_toNat x
  have hy := toInt_toNat y
  simp only [Fits, BitVec.msb_eq_decide, Nat.reduceSub, BitVec.toNat_sub, decide_eq_decide, ne_eq]
  omega

/-- The shift that fills with zeros and the one that repeats the sign are the same where the sign
is zero, and where nothing is shifted. -/
theorem sshiftRight_eq_ushiftRight_iff : x.sshiftRight n = x >>> n ↔ 0 ≤ x.toInt ∨ n = 0 := by
  rw [← msb_eq_false_iff]
  cases hmsb : x.msb with
  | false => simp [BitVec.sshiftRight_eq_of_msb_false hmsb]
  | true =>
    simp only [Bool.true_eq_false, false_or]
    constructor
    · intro h
      by_contra hne
      have hsign := congrArg BitVec.msb h
      simp [hmsb, hne, BitVec.msb_ushiftRight] at hsign
    · rintro rfl
      simp

end Word
