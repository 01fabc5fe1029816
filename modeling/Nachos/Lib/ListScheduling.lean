import Mathlib.Algebra.Order.Group.Defs
import Mathlib.Algebra.Order.Group.MinMax
import Mathlib.Tactic.Abel

/-!
# List scheduling on two machines

Jobs in a given order; each goes to the machine that becomes free first, the first one where both
do. Only the difference of the two times is needed for that.
-/
namespace ListScheduling

variable {α : Type} [AddCommGroup α] [LinearOrder α] {V : α} {T : α × α}

/-- The machine that becomes free first, by the times at which the machines have finished. -/
def assign (T : α × α) : ℕ := if T.1 ≤ T.2 then 1 else 2

/-- The times when that machine has done a job more, of length `V`. -/
def finish (V : α) (T : α × α) : α × α := if T.1 ≤ T.2 then (T.1 + V, T.2) else (T.1, T.2 + V)

/-- The machines of the jobs. -/
def schedule (T : α × α) : List α → List ℕ
  | [] => []
  | V :: Vs => assign T :: schedule (finish V T) Vs

def finishAll (Vs : List α) (T : α × α) : α × α := Vs.foldl (fun T V => finish V T) T

/-- How long the machines are busy after the first of them is free. -/
def relative (T : α × α) : α × α := (T.1 - min T.1 T.2, T.2 - min T.1 T.2)

theorem relative_of_le (h : T.1 ≤ T.2) : relative T = (0, T.2 - T.1) := by
  rw [relative, min_eq_left h, sub_self]

theorem relative_of_ge (h : T.2 ≤ T.1) : relative T = (T.1 - T.2, 0) := by
  rw [relative, min_eq_right h, sub_self]

theorem relative_eq_zero (T : α × α) : (relative T).1 = 0 ∨ (relative T).2 = 0 := by
  rcases le_total T.1 T.2 with h | h
  · rw [relative_of_le h]
    exact .inl rfl
  · rw [relative_of_ge h]
    exact .inr rfl

theorem relative_fst_eq_zero : (relative T).1 = 0 ↔ T.1 ≤ T.2 := by
  rw [relative, sub_eq_zero, left_eq_inf]

/-- The same step, on the relative times. -/
def advance (V : α) (v : α × α) : α × α :=
  if v.1 = 0 then
    if v.2 < V then (V - v.2, 0) else (0, v.2 - V)
  else
    if v.1 < V then (0, V - v.1) else (v.1 - V, 0)

section Ordered

variable [IsOrderedAddMonoid α]

theorem relative_nonneg (T : α × α) : 0 ≤ (relative T).1 ∧ 0 ≤ (relative T).2 :=
  ⟨sub_nonneg.mpr (min_le_left _ _), sub_nonneg.mpr (min_le_right _ _)⟩

theorem relative_finish : relative (finish V T) = advance V (relative T) := by
  unfold advance finish
  by_cases h : T.1 ≤ T.2
  · have hv : (relative T).1 = 0 := relative_fst_eq_zero.mpr h
    rw [if_pos h, if_pos hv, relative_of_le h]
    by_cases hlt : T.2 - T.1 < V
    · have hle : T.2 ≤ T.1 + V := (sub_lt_iff_lt_add'.mp hlt).le
      rw [if_pos hlt, relative_of_ge hle]
      simp only [Prod.mk.injEq, and_true]
      abel
    · have hle : T.1 + V ≤ T.2 := le_sub_iff_add_le'.mp (not_lt.mp hlt)
      rw [if_neg hlt, relative_of_le hle]
      simp only [Prod.mk.injEq, true_and]
      abel
  · have hle : T.2 ≤ T.1 := (not_le.mp h).le
    have hv : (relative T).1 ≠ 0 := fun hz => h (relative_fst_eq_zero.mp hz)
    rw [if_neg h, if_neg hv, relative_of_ge hle]
    by_cases hlt : T.1 - T.2 < V
    · have hle : T.1 ≤ T.2 + V := (sub_lt_iff_lt_add'.mp hlt).le
      rw [if_pos hlt, relative_of_le hle]
      simp only [Prod.mk.injEq, true_and]
      abel
    · have hle : T.2 + V ≤ T.1 := le_sub_iff_add_le'.mp (not_lt.mp hlt)
      rw [if_neg hlt, relative_of_ge hle]
      simp only [Prod.mk.injEq, and_true]
      abel

/-- A bound on the jobs is one on the relative times. -/
theorem advance_lt {b : α} {v : α × α} (hV : 0 < V) (hVb : V < b) (h0 : 0 ≤ v.1 ∧ 0 ≤ v.2)
    (hb : v.1 < b ∧ v.2 < b) : (advance V v).1 < b ∧ (advance V v).2 < b := by
  have hpos : 0 < b := hV.trans hVb
  unfold advance
  split_ifs
  · exact ⟨(sub_le_self V h0.2).trans_lt hVb, hpos⟩
  · exact ⟨hpos, (sub_lt_self v.2 hV).trans hb.2⟩
  · exact ⟨hpos, (sub_le_self V h0.1).trans_lt hVb⟩
  · exact ⟨(sub_lt_self v.1 hV).trans hb.1, hpos⟩

end Ordered

end ListScheduling
