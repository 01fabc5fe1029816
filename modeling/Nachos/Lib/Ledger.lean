import Mathlib.Data.List.Count
import Mathlib.Data.List.Perm.Basic
import Mathlib.Tactic.Common

/-!
# Ledgers

`n` numbered units, of which some are taken. A ledger of flags is exact for a list of the
units in use if it marks each of these, once, and no other.
-/
namespace Ledger

variable {n : ℕ} {marked marked' : ℕ → Bool} {used used' units : List ℕ}

structure Exact (n : ℕ) (marked : ℕ → Bool) (used : List ℕ) : Prop where
  nodup : used.Nodup
  range : ∀ i ∈ used, i < n
  mark : ∀ i < n, marked i = true ↔ i ∈ used

theorem Exact.congr (h : Exact n marked used) (hp : used.Perm used')
    (hm : ∀ i < n, marked' i = marked i) : Exact n marked' used' where
  nodup := hp.nodup_iff.mp h.nodup
  range i hi := h.range i (hp.mem_iff.mpr hi)
  mark i hi := by rw [hm i hi, h.mark i hi, hp.mem_iff]

/-- Units that were not marked are taken. -/
theorem Exact.take (h : Exact n marked used) (hn : units.Nodup)
    (hu : ∀ i ∈ units, i < n ∧ marked i = false)
    (hm : ∀ i < n, marked' i = (decide (i ∈ units) || marked i)) :
    Exact n marked' (units ++ used) where
  nodup := by
    refine List.nodup_append.mpr ⟨hn, h.nodup, fun i hi j hused hij => ?_⟩
    subst hij
    obtain ⟨hlt, hf⟩ := hu i hi
    rw [(h.mark i hlt).mpr hused] at hf
    cases hf
  range i hi := by
    rcases List.mem_append.mp hi with hi | hi
    · exact (hu i hi).1
    · exact h.range i hi
  mark i hi := by
    rw [hm i hi, Bool.or_eq_true, decide_eq_true_eq, h.mark i hi, List.mem_append]

/-- Some of the units in use are released. -/
theorem Exact.release (h : Exact n marked (units ++ used))
    (hm : ∀ i < n, marked' i = (decide (i ∉ units) && marked i)) : Exact n marked' used where
  nodup := (List.nodup_append.mp h.nodup).2.1
  range i hi := h.range i (List.mem_append_right _ hi)
  mark i hi := by
    have hdisj := (List.nodup_append.mp h.nodup).2.2
    rw [hm i hi, Bool.and_eq_true, decide_eq_true_eq, h.mark i hi, List.mem_append]
    constructor
    · rintro ⟨hnot, hin | hin⟩
      · exact absurd hin hnot
      · exact hin
    · intro hin
      exact ⟨fun hu => hdisj i hu i hin rfl, .inr hin⟩

/-- When one member of a list is replaced, so are its units. -/
theorem perm_modify {α : Type*} (f : α → α) (g : α → List ℕ) {l : List α} {i : ℕ}
    (hi : i < l.length) :
    ((l.modify i f).flatMap g ++ g l[i]).Perm (l.flatMap g ++ g (f l[i])) := by
  have hl : l = l.take i ++ l[i] :: l.drop (i + 1) := by simp
  have hm : l.modify i f = l.take i ++ f l[i] :: l.drop (i + 1) := by
    rw [List.modify_eq_take_cons_drop hi]
  rw [List.perm_iff_count]
  intro a
  have hc : (l.flatMap g).count a = ((l.take i).flatMap g).count a + (g l[i]).count a +
      ((l.drop (i + 1)).flatMap g).count a := by
    conv_lhs => rw [hl]
    simp only [List.flatMap_append, List.flatMap_cons, List.count_append]
    omega
  rw [hm]
  simp only [List.flatMap_append, List.flatMap_cons, List.count_append, hc]
  omega

end Ledger
