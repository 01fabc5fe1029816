import Nachos.Lib.ListScheduling
import Nachos.Test.WaterTaps

/-!
# The taps are scheduled greedily

`voinuoc` keeps how long each tap will still be in use after the first one is free. The taps it
chooses are those of list scheduling with the absolute times.
-/
namespace Nachos.WaterTaps

open Concurrent
open Bytes (Byte)
open ListScheduling (assign finish schedule finishAll relative advance)

variable {V : Int} {Vs : List Int} {v T : Int × Int} {ws volumes : List Volume}

/-- The taps that the loop of `voinuoc` writes for a sequence of volumes. -/
def taps (v : Int × Int) : List Int → List ℕ
  | [] => []
  | V :: Vs => tapNumber v :: taps (pour V v) Vs

/-- `v1` and `v2` after these volumes. -/
def pourAll (Vs : List Int) (v : Int × Int) : Int × Int := Vs.foldl (fun v V => pour V v) v

/-- A positive `int`. -/
def IsVolume (V : Int) : Prop := 0 < V ∧ V < 2 ^ 31

instance (V : Int) : Decidable (IsVolume V) := inferInstanceAs (Decidable (_ ∧ _))

/-- The values that `v1` and `v2` can have. -/
structure Remaining (v : Int × Int) : Prop where
  nonneg : 0 ≤ v.1 ∧ 0 ≤ v.2
  free : v.1 = 0 ∨ v.2 = 0
  small : v.1 < 2 ^ 31 ∧ v.2 < 2 ^ 31

theorem wrap_of_fits {x : Int} (hlow : -2 ^ 31 ≤ x) (hhigh : x < 2 ^ 31) : wrap x = x :=
  Int.bmod_eq_of_le (by omega) (by omega)

/-- No difference overflows, and the step is the one on relative times. -/
theorem pour_eq_advance (hv : Remaining v) (hV : IsVolume V) : pour V v = advance V v := by
  obtain ⟨⟨h1, h2⟩, hfree, hs1, hs2⟩ := hv
  obtain ⟨hpos, hlt⟩ := hV
  unfold pour advance
  by_cases hzero : v.1 = 0
  · rw [if_pos hzero, if_pos hzero]
    by_cases hmore : v.2 < V
    · rw [if_pos hmore, if_pos hmore, wrap_of_fits (by omega) (by omega)]
    · rw [if_neg hmore, if_neg hmore, wrap_of_fits (by omega) (by omega), hzero]
  · have hother : v.2 = 0 := hfree.resolve_left hzero
    rw [if_neg hzero, if_neg hzero]
    by_cases hmore : v.1 < V
    · rw [if_pos hmore, if_pos hmore, wrap_of_fits (by omega) (by omega)]
    · rw [if_neg hmore, if_neg hmore, wrap_of_fits (by omega) (by omega), hother]

theorem tapNumber_relative (T : Int × Int) : tapNumber (relative T) = assign T := by
  unfold tapNumber assign
  by_cases h : T.1 ≤ T.2
  · rw [if_pos h, if_pos (ListScheduling.relative_fst_eq_zero.mpr h)]
  · rw [if_neg h, if_neg fun hz => h (ListScheduling.relative_fst_eq_zero.mp hz)]

theorem remaining_relative (hsmall : (relative T).1 < 2 ^ 31 ∧ (relative T).2 < 2 ^ 31) :
    Remaining (relative T) :=
  ⟨ListScheduling.relative_nonneg T, ListScheduling.relative_eq_zero T, hsmall⟩

/-- One volume: the times stay related, and small. -/
theorem pour_relative (hT : Remaining (relative T)) (hV : IsVolume V) :
    pour V (relative T) = relative (finish V T) ∧ Remaining (relative (finish V T)) := by
  have hpour : pour V (relative T) = relative (finish V T) := by
    rw [pour_eq_advance hT hV, ListScheduling.relative_finish]
  refine ⟨hpour, remaining_relative ?_⟩
  rw [ListScheduling.relative_finish]
  exact ListScheduling.advance_lt hV.1 hV.2 hT.nonneg hT.small

/-- All volumes. -/
theorem taps_relative (hT : Remaining (relative T)) (hVs : ∀ V ∈ Vs, IsVolume V) :
    taps (relative T) Vs = schedule T Vs ∧
      pourAll Vs (relative T) = relative (finishAll Vs T) ∧ Remaining (relative (finishAll Vs T)) := by
  induction Vs generalizing T with
  | nil => exact ⟨rfl, rfl, hT⟩
  | cons V Vs ih =>
    obtain ⟨hpour, hT'⟩ := pour_relative hT (hVs V List.mem_cons_self)
    obtain ⟨htaps, hall, hrem⟩ := ih hT' fun W hW => hVs W (List.mem_cons_of_mem V hW)
    refine ⟨?_, ?_, hrem⟩
    · rw [taps, schedule, tapNumber_relative, hpour, htaps]
    · rw [pourAll, List.foldl_cons, hpour]
      exact hall

theorem remaining_start : Remaining (relative ((0, 0) : Int × Int)) :=
  remaining_relative (by decide)

/-- For every sequence of positive volumes the taps are those of list scheduling, and after any
number of them `v1` and `v2` say how much later than the other tap each will be free. -/
theorem taps_eq_schedule (Vs : List Int) (hVs : ∀ V ∈ Vs, IsVolume V) :
    taps (0, 0) Vs = schedule (0, 0) Vs ∧ ∀ n,
      let v := pourAll (Vs.take n) (0, 0)
      let T := finishAll (Vs.take n) (0, 0)
      0 ≤ v.1 ∧ 0 ≤ v.2 ∧ (v.1 = 0 ∨ v.2 = 0) ∧
        v.1 = T.1 - min T.1 T.2 ∧ v.2 = T.2 - min T.1 T.2 := by
  refine ⟨(taps_relative remaining_start hVs).1, fun n => ?_⟩
  have hfirst : ∀ V ∈ Vs.take n, IsVolume V := fun V hV => hVs V (List.mem_of_mem_take hV)
  obtain ⟨-, hall, hrem⟩ := taps_relative remaining_start hfirst
  have hv : pourAll (Vs.take n) (0, 0) = relative (finishAll (Vs.take n) (0, 0)) := hall
  simp only [hv]
  exact ⟨hrem.nonneg.1, hrem.nonneg.2, hrem.free, rfl, rfl⟩

/-- The second line of `output.txt`. -/
theorem taps_eq_schedule_sample : taps (0, 0) [2, 2, 1, 1, 3] = [1, 2, 1, 2, 1] :=
  (taps_eq_schedule [2, 2, 1, 1, 3] (by decide)).1.trans (by decide)

/-! ## In a run -/

def Ev.tap? : Ev → Option ℕ
  | .tap number => some number
  | _ => none

theorem script_taps (v : Int × Int) (ws : List Volume) :
    (script v ws).filterMap Ev.tap? = taps v (ws.map fun w => (decimal w.digits : Int)) := by
  induction ws generalizing v with
  | nil => rfl
  | cons w ws ih =>
    rw [List.map_cons, taps, ← ih]
    rfl

/-- What `voinuoc` has written so far is the beginning of the schedule, and in the end all of it. -/
theorem HandedOver.taps {before : List Byte} {tr : List (Event Sem Ev)} {a : Atomic}
    (h : HandedOver before volumes tr a) (hsmall : ∀ w ∈ volumes, decimal w.digits < 2 ^ 31) :
    (log tr).filterMap Ev.tap? <+: schedule (0, 0) (volumes.map fun w => (decimal w.digits : Int)) ∧
    (Ended a → (log tr).filterMap Ev.tap? =
      schedule (0, 0) (volumes.map fun w => (decimal w.digits : Int))) := by
  have hVs : ∀ V ∈ volumes.map fun w => (decimal w.digits : Int), IsVolume V := by
    intro V hV
    obtain ⟨w, hw, rfl⟩ := List.mem_map.mp hV
    have hlt := hsmall w hw
    have hpos := w.positive
    exact ⟨by omega, by omega⟩
  have hscript : (script (0, 0) volumes).filterMap Ev.tap? =
      schedule (0, 0) (volumes.map fun w => (decimal w.digits : Int)) :=
    (script_taps (0, 0) volumes).trans (taps_relative remaining_start hVs).1
  refine ⟨?_, fun hended => ?_⟩
  · rw [← hscript]
    exact h.order.filterMap _
  · rw [h.finished hended, hscript]

end Nachos.WaterTaps
