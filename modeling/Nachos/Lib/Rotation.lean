import Mathlib.Algebra.Order.Group.Nat
import Mathlib.Data.Nat.ModEq
import Mathlib.Order.Bounds.Basic
import Mathlib.Tactic.Common

/-!
# Rotation

A drum with `n` places turns under a head. Each place takes `r` ticks, and at tick `0` the place
`0` begins. When has a place gone by as a whole?
-/
namespace Rotation

variable {r n start stop x k q q' t : ℕ}

/-- The place `x` has gone by, from its beginning to its end. -/
def Passes (r n start stop x : ℕ) : Prop :=
  ∃ k, start ≤ k * r ∧ (k + 1) * r ≤ stop ∧ k % n = x % n

/-- The first place that begins at `t` or later, in a count that is not reset. -/
def slot (r t : ℕ) : ℕ := (t + (r - 1)) / r

/-- How far it is from `k` to the next place with the number `x`. -/
def distance (n x k : ℕ) : ℕ := (x % n + n - k % n) % n

theorem slot_le_iff (hr : 0 < r) : slot r t ≤ k ↔ t ≤ k * r := by
  rw [slot, Nat.div_le_iff_le_mul_add_pred hr, Nat.mul_comm]
  omega

theorem le_slot_mul (hr : 0 < r) (t : ℕ) : t ≤ slot r t * r := (slot_le_iff hr).mp le_rfl

theorem slot_mul_lt (hr : 0 < r) (t : ℕ) : slot r t * r < t + r := by
  have := Nat.div_mul_le_self (t + (r - 1)) r
  rw [slot]
  omega

theorem slot_mono (r : ℕ) (h : t ≤ k) : slot r t ≤ slot r k :=
  Nat.div_le_div_right (Nat.add_le_add_right h _)

theorem distance_lt (hn : 0 < n) (x k : ℕ) : distance n x k < n := Nat.mod_lt _ hn

theorem add_distance_mod (hn : 0 < n) (x k : ℕ) : (k + distance n x k) % n = x % n := by
  have hk : k % n < n := Nat.mod_lt k hn
  have hsum : k % n + (x % n + n - k % n) = x % n + n := by omega
  rw [distance, Nat.add_mod_mod, ← Nat.mod_add_mod, hsum, Nat.add_mod_right, Nat.mod_mod]

/-- No place with this number is nearer. -/
theorem add_distance_le (hn : 0 < n) (hq : q ≤ k) (hk : k % n = x % n) :
    q + distance n x q ≤ k := by
  by_contra hlt
  have hle : k ≤ q + distance n x q := by omega
  have hmod : k ≡ q + distance n x q [MOD n] := hk.trans (add_distance_mod hn x q).symm
  have hdvd := (Nat.modEq_iff_dvd' hle).mp hmod
  have hsmall := distance_lt hn x q
  have := Nat.le_of_dvd (by omega) hdvd
  omega

/-- It is the same place as long as it has not begun. -/
theorem add_distance_eq (hn : 0 < n) (hq : q ≤ q') (hle : q' ≤ q + distance n x q) :
    q' + distance n x q' = q + distance n x q := by
  apply le_antisymm
  · exact add_distance_le hn hle (add_distance_mod hn x q)
  · exact add_distance_le hn (hq.trans (Nat.le_add_right _ _)) (add_distance_mod hn x q')

theorem Passes.le (h : Passes r n start stop x) : start ≤ stop := by
  obtain ⟨k, hstart, hstop, -⟩ := h
  exact hstart.trans ((Nat.mul_le_mul_right r (Nat.le_succ k)).trans hstop)

/-- A place has gone by once the next one with its number has. -/
theorem passes_iff (hr : 0 < r) (hn : 0 < n) : Passes r n start stop x ↔
    (slot r start + distance n x (slot r start) + 1) * r ≤ stop := by
  constructor
  · rintro ⟨k, hstart, hstop, hk⟩
    have hle := add_distance_le hn ((slot_le_iff hr).mpr hstart) hk
    exact (Nat.mul_le_mul_right r (Nat.succ_le_succ hle)).trans hstop
  · intro hstop
    refine ⟨_, ?_, hstop, add_distance_mod hn x _⟩
    exact (slot_le_iff hr).mp (Nat.le_add_right _ _)

/-- The first time at which a place has gone by and `r` ticks are over. -/
theorem isLeast_passes (hr : 0 < r) (hn : 0 < n) (now start x : ℕ) :
    IsLeast {stop | now + r ≤ stop ∧ Passes r n start stop x}
      (max (now + r) ((slot r start + distance n x (slot r start) + 1) * r)) := by
  constructor
  · exact ⟨le_max_left _ _, (passes_iff hr hn).mpr (le_max_right _ _)⟩
  · rintro stop ⟨hnow, hpasses⟩
    exact max_le hnow ((passes_iff hr hn).mp hpasses)

end Rotation
