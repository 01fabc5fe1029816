import Mathlib.Algebra.Group.Int.Even
import Mathlib.Algebra.Ring.Nat
import Mathlib.Data.Nat.ModEq
import Mathlib.Tactic.Ring
import Nachos.Machine.Arithmetic

/-!
# The product of `Mult`

The loop of `Mult` adds up `b`, shifted, for the bits of `a`, in two words with a carry between
them. What it still has to add is the product of the bits that are left in `a` with the shifted
`b`; nothing is left when it breaks off. The rest of `Mult` is about signs.
-/
namespace Nachos.Mips

/-- Two words as one number. -/
def double (hi lo : BitVec 32) : ℕ := hi.toNat * 2 ^ 32 + lo.toNat

namespace Mult

variable {v : Mult} {a b : BitVec 32} {n : ℕ}

/-- The product so far. -/
def product (v : Mult) : ℕ := double v.hi v.lo

/-- The second factor, shifted. -/
def factor (v : Mult) : ℕ := double v.bHi v.bLo

theorem product_lt : v.product < 2 ^ 64 := by
  have := v.hi.isLt
  have := v.lo.isLt
  simp only [product, double]
  omega

/-! ## One step -/

theorem product_add : v.add.product = (v.product + v.factor) % 2 ^ 64 := by
  have := v.hi.isLt
  have := v.lo.isLt
  have := v.bHi.isLt
  have := v.bLo.isLt
  have hcarry : (if v.lo + v.bLo < v.bLo then v.hi + 1 else v.hi).toNat =
      (v.hi.toNat + if 2 ^ 32 ≤ v.lo.toNat + v.bLo.toNat then 1 else 0) % 2 ^ 32 := by
    have hlt : v.lo + v.bLo < v.bLo ↔ 2 ^ 32 ≤ v.lo.toNat + v.bLo.toNat := by
      rw [BitVec.lt_def, BitVec.toNat_add]
      omega
    simp only [hlt]
    split
    · rw [BitVec.toNat_add]
      rfl
    · omega
  simp only [product, factor, double, add, BitVec.toNat_add, hcarry]
  split <;> omega

theorem toNat_double (x : BitVec 32) : (x <<< 1).toNat = 2 * x.toNat % 2 ^ 32 := by
  rw [BitVec.toNat_shiftLeft, Nat.shiftLeft_eq, Nat.pow_one, Nat.mul_comm]

/-- The bit that a shift has made room for. -/
theorem toNat_double_or_one (x : BitVec 32) :
    (x <<< 1 ||| 1).toNat = 2 * x.toNat % 2 ^ 32 + 1 := by
  have hand : x <<< 1 &&& 1 = 0 := by
    apply BitVec.eq_of_toNat_eq
    rw [Word.toNat_and_one, toNat_double]
    show _ = 0
    omega
  rw [← BitVec.add_eq_or_of_and_eq_zero _ _ hand, BitVec.toNat_add, toNat_double]
  show (_ + 1) % _ = _
  omega

theorem factor_shift : v.shift.factor = 2 * v.factor % 2 ^ 64 := by
  have := v.bHi.isLt
  have := v.bLo.isLt
  have hsign : v.bLo &&& 0x80000000 = 0 ↔ v.bLo.toNat < 2 ^ 31 := by
    rw [Word.and_sign_eq_zero, BitVec.msb_eq_false_iff_two_mul_lt]
    omega
  simp only [factor, double, shift, ne_eq, hsign]
  split
  · rw [toNat_double_or_one, toNat_double]
    omega
  · rw [toNat_double, toNat_double]
    omega

theorem product_shift : v.shift.product = v.product := rfl

/-- An arithmetic shift, of a number with a sign or without one. -/
theorem toNat_sshiftRight_one (x : BitVec 32) :
    (x.sshiftRight 1).toNat = x.toNat / 2 + if 2 ^ 31 ≤ x.toNat then 2 ^ 31 else 0 := by
  have := x.isLt
  cases hmsb : x.msb with
  | false =>
    rw [BitVec.msb_eq_false_iff_two_mul_lt] at hmsb
    rw [if_neg (by omega), BitVec.sshiftRight_eq_of_msb_false
      (BitVec.msb_eq_false_iff_two_mul_lt.mpr hmsb), BitVec.toNat_ushiftRight]
    rfl
  | true =>
    rw [BitVec.msb_eq_true_iff_two_mul_ge] at hmsb
    rw [if_pos (by omega), BitVec.sshiftRight_eq_of_msb_true
      (BitVec.msb_eq_true_iff_two_mul_ge.mpr hmsb), BitVec.toNat_not, BitVec.toNat_ushiftRight,
      BitVec.toNat_not, Nat.shiftRight_eq_div_pow]
    omega

/-- Of the bits that are still to come the sign does not change any. -/
theorem toNat_shift_mod (hn : n ≤ 31) : v.shift.a.toNat % 2 ^ n = v.a.toNat / 2 % 2 ^ n := by
  rw [shift, toNat_sshiftRight_one]
  split
  · have hpow : (2 : ℕ) ^ 31 = 2 ^ n * 2 ^ (31 - n) := by
      rw [← Nat.pow_add]
      congr 1
      omega
    rw [hpow, Nat.add_mul_mod_self_left]
  · rfl

/-! ## The loop -/

theorem and_one_ne_zero (x : BitVec 32) : x &&& 1 ≠ 0 ↔ x.toNat % 2 = 1 := by
  rw [ne_eq, ← BitVec.toNat_inj, Word.toNat_and_one]
  show ¬_ = 0 ↔ _
  omega

theorem eq_one_of_bits (hodd : a.toNat % 2 = 1) (h : a &&& 0xfffffffe = 0) : a.toNat = 1 := by
  have hsplit : (a &&& 1) ||| (a &&& ~~~1) = a := by
    rw [← BitVec.and_or_distrib_left, BitVec.or_not_self, BitVec.and_allOnes]
  have hzero : a &&& ~~~1 = 0 := h
  rw [hzero] at hsplit
  have hone : a &&& 1 = a := (BitVec.or_zero (x := a &&& 1)).symm.trans hsplit
  rw [← hone, Word.toNat_and_one, hodd]

theorem mod_two_pow_succ (k n : ℕ) : k % 2 ^ (n + 1) = k % 2 + 2 * (k / 2 % 2 ^ n) := by
  rw [Nat.pow_succ', Nat.mod_mul]

/-- The invariant of the loop: `n` more rounds add the product of the low `n` bits of `a` and the
shifted `b`. Rounds that are broken off would have added nothing. -/
theorem loop_product (hn : n ≤ 32) :
    (loop n v).product ≡ v.product + v.a.toNat % 2 ^ n * v.factor [MOD 2 ^ 64] := by
  induction n generalizing v with
  | zero =>
    rw [loop, Nat.pow_zero, Nat.mod_one, Nat.zero_mul, Nat.add_zero]
  | succ n ih =>
    have hround : ∀ w : Mult, w.a = v.a → w.factor = v.factor →
        (loop n w.shift).product ≡ w.product + 2 * (v.a.toNat / 2 % 2 ^ n) * v.factor
          [MOD 2 ^ 64] := by
      intro w ha hfactor
      have hmod := toNat_shift_mod (v := w) (show n ≤ 31 by omega)
      refine (ih (v := w.shift) (by omega)).trans ?_
      have hdouble : v.a.toNat / 2 % 2 ^ n * (2 * v.factor % 2 ^ 64) ≡
          2 * (v.a.toNat / 2 % 2 ^ n) * v.factor [MOD 2 ^ 64] := by
        have hcomm : 2 * (v.a.toNat / 2 % 2 ^ n) * v.factor =
            v.a.toNat / 2 % 2 ^ n * (2 * v.factor) := by ring
        rw [hcomm]
        exact (Nat.mod_modEq _ _).mul_left _
      rw [hmod, ha, product_shift, factor_shift, hfactor]
      exact hdouble.add_left _
    have hadd : v.add.product ≡ v.product + v.factor [MOD 2 ^ 64] := by
      rw [product_add]
      exact Nat.mod_modEq _ _
    rw [loop, mod_two_pow_succ]
    split
    · rename_i hodd
      have hodd := (and_one_ne_zero _).mp hodd
      split
      · rename_i hlast
        have hone := eq_one_of_bits hodd hlast
        rw [hone]
        simpa using hadd
      · refine (hround v.add rfl rfl).trans ?_
        rw [hodd, Nat.add_mul, Nat.one_mul, ← Nat.add_assoc]
        exact hadd.add_right _
    · rename_i heven
      have heven : v.a.toNat % 2 = 0 := by
        have := (and_one_ne_zero v.a).not.mp heven
        omega
      rw [heven, Nat.zero_add]
      exact hround v rfl rfl

/-- From the start, all of it. -/
theorem loop_start (a b : BitVec 32) :
    (loop 32 ⟨a, b, 0, 0, 0⟩).product = a.toNat * b.toNat := by
  have ha := a.isLt
  have hb := b.isLt
  have hlt : a.toNat * b.toNat < 2 ^ 64 := by
    calc a.toNat * b.toNat < 2 ^ 32 * 2 ^ 32 := Nat.mul_lt_mul'' ha hb
      _ = 2 ^ 64 := by norm_num
  have hfactor : factor ⟨a, b, 0, 0, 0⟩ = b.toNat := by
    simp [factor, double]
  have hproduct : product ⟨a, b, 0, 0, 0⟩ = 0 := by
    simp [product, double]
  have hbits : (⟨a, b, 0, 0, 0⟩ : Mult).a.toNat % 2 ^ 32 = a.toNat := Nat.mod_eq_of_lt ha
  have hloop := loop_product (v := ⟨a, b, 0, 0, 0⟩) (n := 32) le_rfl
  rw [hfactor, hbits, hproduct, Nat.zero_add] at hloop
  exact Nat.ModEq.eq_of_lt_of_lt hloop product_lt hlt

/-! ## Signs -/

/-- The two's complement of a product that is not zero. -/
theorem double_neg (hi lo : BitVec 32) (hne : double hi lo ≠ 0) :
    double (if ~~~lo + 1 = 0 then ~~~hi + 1 else ~~~hi) (~~~lo + 1) = 2 ^ 64 - double hi lo := by
  have := hi.isLt
  have := lo.isLt
  have hlo : (~~~lo + 1).toNat = (2 ^ 32 - lo.toNat) % 2 ^ 32 := by
    rw [BitVec.toNat_add, BitVec.toNat_not]
    show (_ + 1) % _ = _
    omega
  have hzero : ~~~lo + 1 = 0 ↔ lo.toNat = 0 := by
    rw [← BitVec.toNat_inj, hlo]
    show _ = 0 ↔ _
    omega
  simp only [double] at hne ⊢
  rw [hlo]
  split
  · rename_i h
    have h := hzero.mp h
    rw [BitVec.toNat_add, BitVec.toNat_not]
    show (_ + 1) % _ * _ + _ = _
    omega
  · rename_i h
    have h := hzero.not.mp h
    rw [BitVec.toNat_not]
    omega

theorem toNat_neg_of_slt (h : a.slt 0 = true) : ((-a).toNat : ℤ) = -a.toInt := by
  have hneg := (Word.slt_zero_iff a).mp h
  have := Word.toInt_toNat a
  have := a.isLt
  rw [BitVec.toNat_neg]
  omega

theorem toNat_of_not_slt (h : a.slt 0 = false) : (a.toNat : ℤ) = a.toInt := by
  have hneg : ¬2 ^ 31 ≤ a.toNat := by
    rw [← Word.slt_zero_iff]
    exact Bool.not_eq_true _ ▸ h
  have := Word.toInt_toNat a
  omega

theorem toNat_append (hi lo : BitVec 32) : (hi ++ lo).toNat = double hi lo := by
  rw [BitVec.toNat_append, ← Nat.shiftLeft_add_eq_or_of_lt lo.isLt, Nat.shiftLeft_eq]
  rfl

theorem toInt_append_of_lt {hi lo : BitVec 32} (h : double hi lo < 2 ^ 63) :
    (hi ++ lo).toInt = double hi lo := by
  rw [BitVec.toInt_eq_toNat_of_lt, toNat_append]
  rw [toNat_append]
  omega

theorem toInt_append_of_ge {hi lo : BitVec 32} (h : 2 ^ 63 ≤ double hi lo) :
    (hi ++ lo).toInt = double hi lo - 2 ^ 64 := by
  rw [BitVec.toInt_eq_toNat_cond, toNat_append, if_neg (by omega)]
  rfl

/-- The words without their signs. -/
def magnitude (a : BitVec 32) : BitVec 32 := if a.slt 0 then -a else a

theorem toNat_magnitude (a : BitVec 32) :
    ((magnitude a).toNat : ℤ) = if a.slt 0 then -a.toInt else a.toInt := by
  unfold magnitude
  cases h : a.slt 0 with
  | false => exact toNat_of_not_slt h
  | true => exact toNat_neg_of_slt h

theorem toNat_magnitude_le (a : BitVec 32) : (magnitude a).toNat ≤ 2 ^ 31 := by
  have h := toNat_magnitude a
  have := Word.toInt_toNat a
  have := a.isLt
  split at h <;> omega

theorem toNat_magnitude_pos (ha : a ≠ 0) : 0 < (magnitude a).toNat := by
  have hne : a.toInt ≠ 0 := by
    intro h
    exact ha (BitVec.eq_of_toInt_eq h)
  have h := toNat_magnitude a
  split at h <;> omega

/-- `Mult` of signed words that are not zero. -/
theorem mult_signed (ha : a ≠ 0) (hb : b ≠ 0) :
    ((mult a b true).1 ++ (mult a b true).2).toInt = a.toInt * b.toInt := by
  have hstart := loop_start (magnitude a) (magnitude b)
  have hle : (magnitude a).toNat * (magnitude b).toNat ≤ 2 ^ 31 * 2 ^ 31 :=
    Nat.mul_le_mul (toNat_magnitude_le a) (toNat_magnitude_le b)
  have hpos : 0 < (magnitude a).toNat * (magnitude b).toNat :=
    Nat.mul_pos (toNat_magnitude_pos ha) (toNat_magnitude_pos hb)
  have hvalue : (((magnitude a).toNat * (magnitude b).toNat : ℕ) : ℤ) =
      (if a.slt 0 then -a.toInt else a.toInt) * (if b.slt 0 then -b.toInt else b.toInt) := by
    rw [Nat.cast_mul, toNat_magnitude, toNat_magnitude]
  have hmult : mult a b true =
      let w := loop 32 ⟨magnitude a, magnitude b, 0, 0, 0⟩
      if a.slt 0 != b.slt 0 then
        (if ~~~w.lo + 1 = 0 then ~~~w.hi + 1 else ~~~w.hi, ~~~w.lo + 1)
      else (w.hi, w.lo) := by
    unfold mult
    rw [if_neg (not_or.mpr ⟨ha, hb⟩)]
    rfl
  rw [hmult]
  generalize loop 32 ⟨magnitude a, magnitude b, 0, 0, 0⟩ = w at hstart
  generalize (magnitude a).toNat * (magnitude b).toNat = p at hstart hle hpos hvalue
  have hw : double w.hi w.lo = p := hstart
  by_cases hsign : a.slt 0 = b.slt 0
  · have hproduct : (p : ℤ) = a.toInt * b.toInt := by
      rw [hvalue, hsign]
      split <;> ring
    simp only [hsign, bne_self_eq_false, Bool.false_eq_true, if_false]
    rw [toInt_append_of_lt (by omega), hw, hproduct]
  · have hproduct : (p : ℤ) = -(a.toInt * b.toInt) := by
      rw [hvalue]
      generalize a.slt 0 = negA at hsign ⊢
      generalize b.slt 0 = negB at hsign ⊢
      cases negA <;> cases negB <;> simp at hsign ⊢
    have hne : (a.slt 0 != b.slt 0) = true := by simpa using hsign
    simp only [hne, if_true]
    have hneg := double_neg w.hi w.lo (by omega)
    rw [toInt_append_of_ge (by omega), hneg, hw]
    omega

/-- `Mult` of words without signs. -/
theorem mult_unsigned (a b : BitVec 32) :
    ((mult a b false).1 ++ (mult a b false).2).toNat = a.toNat * b.toNat := by
  rw [toNat_append]
  by_cases hzero : a = 0 ∨ b = 0
  · unfold mult
    rw [if_pos hzero]
    rcases hzero with rfl | rfl
    · simp [double]
    · simp [double]
  · have hmult : mult a b false = ((loop 32 ⟨a, b, 0, 0, 0⟩).hi, (loop 32 ⟨a, b, 0, 0, 0⟩).lo) := by
      unfold mult
      rw [if_neg hzero]
      rfl
    rw [hmult]
    exact loop_start a b

/-- `Mult` leaves the exact double-length product, signed or not. -/
theorem mult_exact (a b : BitVec 32) :
    ((mult a b true).1 ++ (mult a b true).2).toInt = a.toInt * b.toInt ∧
    ((mult a b false).1 ++ (mult a b false).2).toNat = a.toNat * b.toNat := by
  refine ⟨?_, mult_unsigned a b⟩
  by_cases hzero : a = 0 ∨ b = 0
  · unfold mult
    rw [if_pos hzero]
    rcases hzero with rfl | rfl
    · simp
    · simp
  · push Not at hzero
    exact mult_signed hzero.1 hzero.2

end Mult

namespace Machine

open Registers

variable {m m₁ : Machine} {word : BitVec 32}

/-- `MULT` and `MULTU` leave it in `HI` and `LO`. -/
theorem multiply_exact (instr : Instruction) (pcAfter : BitVec 32) (signedArith : Bool)
    (m : Machine) : ∃ m', multiply instr pcAfter signedArith m = .done ⟨pcAfter, 0, 0⟩ m' ∧
      (m'.registers HiReg, m'.registers LoReg) =
        Mult.mult (m.general instr.rs) (m.general instr.rt) signedArith ∧ m'.general = m.general := by
  refine ⟨_, rfl, ?_, ?_⟩
  · have hne : HiReg ≠ LoReg := by decide
    simp [writeRegister, Function.update_of_ne hne, general]
  · funext i
    have hhi : gpr i ≠ HiReg := gpr_ne (by decide)
    have hlo : gpr i ≠ LoReg := gpr_ne (by decide)
    simp [general, writeRegister, Function.update_of_ne hhi, Function.update_of_ne hlo]

end Machine

end Nachos.Mips
