import Mathlib.Algebra.GroupWithZero.Nat
import Mathlib.Data.List.Perm.Basic
import Mathlib.Order.Interval.Finset.Nat
import Mathlib.Algebra.BigOperators.Group.List.Basic

/-!
# Stretches laid end to end

A stretch is a start and a length. Several of them cover a stretch of their total length
exactly if they can be laid end to end.
-/
namespace Stretches

abbrev Stretch := ℕ × ℕ

variable {v x : ℕ} {l : List Stretch}

/-- Each stretch begins where the one before it ends, the first one at `v`. -/
def EndToEnd (v : ℕ) : List Stretch → Prop
  | [] => True
  | p :: l => p.1 = v ∧ EndToEnd (v + p.2) l

/-- Their total length. -/
def total (l : List Stretch) : ℕ := (l.map Prod.snd).sum

/-- What they cover. -/
def cover (l : List Stretch) : Finset ℕ :=
  l.foldr (fun p s => Finset.Ico p.1 (p.1 + p.2) ∪ s) ∅

@[simp] theorem cover_cons (p : Stretch) (l : List Stretch) :
    cover (p :: l) = Finset.Ico p.1 (p.1 + p.2) ∪ cover l := rfl

@[simp] theorem total_cons (p : Stretch) (l : List Stretch) : total (p :: l) = p.2 + total l := by
  simp [total]

theorem mem_cover : x ∈ cover l ↔ ∃ p ∈ l, p.1 ≤ x ∧ x < p.1 + p.2 := by
  induction l with
  | nil => simp [cover]
  | cons p l ih => simp [ih]

theorem card_cover_le (l : List Stretch) : (cover l).card ≤ total l := by
  induction l with
  | nil => rfl
  | cons p l ih =>
    have hunion := Finset.card_union_le (Finset.Ico p.1 (p.1 + p.2)) (cover l)
    rw [Nat.card_Ico, Nat.add_sub_cancel_left] at hunion
    rw [cover_cons, total_cons]
    omega

theorem cover_perm {l' : List Stretch} (h : l.Perm l') : cover l = cover l' := by
  ext x
  rw [mem_cover, mem_cover]
  constructor
  · rintro ⟨p, hp, hx⟩
    exact ⟨p, h.mem_iff.mp hp, hx⟩
  · rintro ⟨p, hp, hx⟩
    exact ⟨p, h.mem_iff.mpr hp, hx⟩

theorem total_perm {l' : List Stretch} (h : l.Perm l') : total l = total l' :=
  (h.map Prod.snd).sum_eq

theorem EndToEnd.cover (h : EndToEnd v l) : cover l = Finset.Ico v (v + total l) := by
  induction l generalizing v with
  | nil => simp [Stretches.cover, total]
  | cons p l ih =>
    obtain ⟨rfl, h⟩ := h
    rw [cover_cons, ih h, total_cons, ← Nat.add_assoc]
    exact Finset.Ico_union_Ico_eq_Ico (Nat.le_add_right _ _) (Nat.le_add_right _ _)

/-- Without the first of them, the others cover the rest: they have no length to spare. -/
theorem cover_rest {n : ℕ} (h : cover ((v, n) :: l) = Finset.Ico v (v + total ((v, n) :: l))) :
    cover l = Finset.Ico (v + n) (v + n + total l) := by
  rw [cover_cons, total_cons, ← Nat.add_assoc] at h
  have hsub : Finset.Ico (v + n) (v + n + total l) ⊆ cover l := by
    intro x hx
    rw [Finset.mem_Ico] at hx
    have hin : x ∈ Finset.Ico v (v + n) ∪ cover l := by
      rw [h, Finset.mem_Ico]
      omega
    rcases Finset.mem_union.mp hin with hin | hin
    · rw [Finset.mem_Ico] at hin
      omega
    · exact hin
  have hcard : (cover l).card ≤ (Finset.Ico (v + n) (v + n + total l)).card := by
    rw [Nat.card_Ico, Nat.add_sub_cancel_left]
    exact card_cover_le l
  exact (Finset.eq_of_subset_of_card_le hsub hcard).symm

theorem endToEnd_of_cover {n : ℕ} (hlen : l.length = n) (hpos : ∀ p ∈ l, 0 < p.2)
    (h : cover l = Finset.Ico v (v + total l)) : ∃ l', l'.Perm l ∧ EndToEnd v l' := by
  induction n generalizing v l with
  | zero =>
    rw [List.length_eq_zero_iff.mp hlen]
    exact ⟨[], .refl _, trivial⟩
  | succ n ih =>
    -- the first byte is covered by a stretch that begins with it
    have htotal : 0 < total l := by
      cases l with
      | nil => simp at hlen
      | cons p l =>
        have := hpos p List.mem_cons_self
        rw [total_cons]
        omega
    have hv : v ∈ cover l := by
      rw [h, Finset.mem_Ico]
      omega
    obtain ⟨p, hp, hlo, hhi⟩ := mem_cover.mp hv
    have hp1 : p.1 ∈ cover l := mem_cover.mpr ⟨p, hp, le_rfl, by have := hpos p hp; omega⟩
    rw [h, Finset.mem_Ico] at hp1
    obtain ⟨a, m⟩ := p
    obtain rfl : a = v := le_antisymm hlo hp1.1
    have hperm := List.perm_cons_erase hp
    rw [cover_perm hperm, total_perm hperm] at h
    obtain ⟨l', hl', hend⟩ := ih (l := l.erase (a, m))
      (by rw [List.length_erase_of_mem hp, hlen]; rfl)
      (fun q hq => hpos q (List.mem_of_mem_erase hq)) (cover_rest h)
    exact ⟨(a, m) :: l', (hl'.cons _).trans hperm.symm, rfl, hend⟩

/-- Stretches that are not empty cover one stretch of their total length exactly if they can be
laid end to end. -/
theorem cover_eq_iff (hpos : ∀ p ∈ l, 0 < p.2) :
    cover l = Finset.Ico v (v + total l) ↔ ∃ l', l'.Perm l ∧ EndToEnd v l' := by
  constructor
  · exact endToEnd_of_cover rfl hpos
  · rintro ⟨l', hperm, hend⟩
    rw [← cover_perm hperm, ← total_perm hperm]
    exact hend.cover

end Stretches
