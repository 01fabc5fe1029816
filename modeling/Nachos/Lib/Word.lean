import Mathlib.Algebra.Group.Int.Defs
import Mathlib.Algebra.Group.Nat.Defs
import Mathlib.Data.Int.Order.Basic
import Mathlib.Tactic.Common

/-!
# Words

The `int` of a 32-bit machine: what a word counts when it is read with a sign and when it is
read without one, and small numbers as words.
-/
namespace Word

variable {x : BitVec 32} {m n : ℕ}

theorem toInt_of_lt (hx : x.toNat < 2 ^ 31) : x.toInt = x.toNat :=
  BitVec.toInt_eq_toNat_of_lt (by omega)

theorem toNat_of_nonneg (hx : 0 ≤ x.toInt) : x.toInt = x.toNat ∧ x.toNat < 2 ^ 31 := by
  have hlt := BitVec.toInt_pos_iff.mp hx
  exact ⟨BitVec.toInt_eq_toNat_of_lt hlt, by omega⟩

theorem toNat_toInt (hx : 0 ≤ x.toInt) : x.toInt.toNat = x.toNat := by
  rw [(toNat_of_nonneg hx).1, Int.toNat_natCast]

theorem toInt_toNat (x : BitVec 32) :
    (0 ≤ x.toInt ∧ x.toInt = x.toNat ∧ x.toNat < 2 ^ 31) ∨
    (x.toInt < 0 ∧ x.toInt + 2 ^ 32 = x.toNat ∧ 2 ^ 31 ≤ x.toNat) := by
  have := x.isLt
  have := BitVec.toInt_eq_toNat_cond x
  split at this <;> omega

theorem slt_zero_iff (x : BitVec 32) : x.slt 0#32 = true ↔ 2 ^ 31 ≤ x.toNat := by
  have := toInt_toNat x
  rw [BitVec.slt_iff_toInt_lt, BitVec.toInt_zero]
  omega

theorem toNat_pred (hx : 0 < x.toNat) : (x - 1).toNat = x.toNat - 1 := by
  simp only [BitVec.toNat_sub, BitVec.reduceToNat]
  omega

theorem toNat_succ (hx : x.toNat + 1 < 2 ^ 32) : (x + 1).toNat = x.toNat + 1 := by
  rw [BitVec.toNat_add]
  exact Nat.mod_eq_of_lt hx

theorem toNat_and_three (x : BitVec 32) : (x &&& 3).toNat = x.toNat % 4 := by
  rw [BitVec.toNat_and]
  exact Nat.and_two_pow_sub_one_eq_mod x.toNat 2

theorem toNat_and_one (x : BitVec 32) : (x &&& 1).toNat = x.toNat % 2 := by
  rw [BitVec.toNat_and]
  exact Nat.and_two_pow_sub_one_eq_mod x.toNat 1

/-! ## Small numbers -/

theorem toNat_ofNat (hn : n < 2 ^ 32) : (BitVec.ofNat 32 n).toNat = n := by
  rw [BitVec.toNat_ofNat, Nat.mod_eq_of_lt hn]

theorem toInt_ofNat (hn : n < 2 ^ 31) : (BitVec.ofNat 32 n).toInt = n := by
  have hnat := toNat_ofNat (n := n) (by omega)
  rw [toInt_of_lt (by omega), hnat]

theorem ofNat_inj (hm : m < 2 ^ 32) (hn : n < 2 ^ 32)
    (h : BitVec.ofNat 32 m = BitVec.ofNat 32 n) : m = n := by
  rw [← toNat_ofNat hm, ← toNat_ofNat hn, h]

theorem ofNat_eq_iff (hm : m < 2 ^ 32) (hn : n < 2 ^ 32) :
    BitVec.ofNat 32 m = BitVec.ofNat 32 n ↔ m = n :=
  ⟨ofNat_inj hm hn, fun h => by rw [h]⟩

theorem beq_ofNat (hm : m < 2 ^ 32) (hn : n < 2 ^ 32) :
    (BitVec.ofNat 32 m == BitVec.ofNat 32 n) = (m == n) := by
  rw [Bool.eq_iff_iff, beq_iff_eq, beq_iff_eq]
  exact ofNat_eq_iff hm hn

theorem bne_ofNat (hm : m < 2 ^ 32) (hn : n < 2 ^ 32) :
    (BitVec.ofNat 32 m != BitVec.ofNat 32 n) = (m != n) := by
  rw [bne, bne, beq_ofNat hm hn]

theorem ofNat_toNat (x : BitVec 32) : BitVec.ofNat 32 x.toNat = x := by
  apply BitVec.eq_of_toNat_eq
  exact toNat_ofNat x.isLt

theorem ofNat_sub (hm : m < 2 ^ 32) (h : n ≤ m) :
    BitVec.ofNat 32 m - BitVec.ofNat 32 n = BitVec.ofNat 32 (m - n) :=
  BitVec.ofNat_sub_ofNat_of_le m n (by omega) h

theorem sdiv_ofNat (hm : m < 2 ^ 31) (hn : n < 2 ^ 31) :
    (BitVec.ofNat 32 m).sdiv (BitVec.ofNat 32 n) = BitVec.ofNat 32 (m / n) := by
  have hdiv : m / n ≤ m := Nat.div_le_self m n
  apply BitVec.eq_of_toInt_eq
  rw [BitVec.toInt_sdiv, toInt_ofNat hm, toInt_ofNat hn, toInt_ofNat (by omega),
    ← Int.ofNat_tdiv]
  generalize m / n = q at hdiv
  exact Int.bmod_eq_of_le (by omega) (by omega)

theorem srem_ofNat (hm : m < 2 ^ 31) (hn : n < 2 ^ 31) :
    (BitVec.ofNat 32 m).srem (BitVec.ofNat 32 n) = BitVec.ofNat 32 (m % n) := by
  have hmod : m % n ≤ m := Nat.mod_le m n
  apply BitVec.eq_of_toInt_eq
  rw [BitVec.toInt_srem, toInt_ofNat hm, toInt_ofNat hn, toInt_ofNat (by omega)]
  rfl

theorem add_ofNat_inj (hm : m < 2 ^ 32) (hn : n < 2 ^ 32)
    (h : x + BitVec.ofNat 32 m = x + BitVec.ofNat 32 n) : m = n :=
  ofNat_inj hm hn ((BitVec.add_right_inj x).mp h)

/-- What a position has moved by. -/
theorem ofNat_add_sub (m n : ℕ) :
    BitVec.ofNat 32 (m + n) - BitVec.ofNat 32 m = BitVec.ofNat 32 n := by
  rw [BitVec.ofNat_add, BitVec.add_comm, BitVec.add_sub_cancel]

/-- A sum that stays below the sign bit is computed without overflow. -/
theorem toInt_add_ofNat (hx : 0 ≤ x.toInt) (hn : x.toInt + n < 2 ^ 31) :
    (x + BitVec.ofNat 32 n).toInt = x.toNat + n := by
  obtain ⟨hx, hlt⟩ := toNat_of_nonneg hx
  have hsum : (x + BitVec.ofNat 32 n).toNat = x.toNat + n := by
    rw [BitVec.toNat_add, toNat_ofNat (by omega)]
    omega
  rw [toInt_of_lt (by omega), hsum]
  push_cast
  rfl

end Word
