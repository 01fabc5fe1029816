import Mathlib.Data.List.Sort
import Mathlib.Order.Defs.LinearOrder
import Mathlib.Tactic.Common

/-!
# Lists with keys

A new element goes in front of the first one with a bigger key, so behind all that have its key.
-/
namespace Keyed

variable {V κ : Type*} [LinearOrder κ] {key : V → κ} {v x : V} {l l' : List V} {k : κ}

/-- In front of the first element with a bigger key. -/
def insert (key : V → κ) (v : V) (l : List V) : List V :=
  l.orderedInsert (fun x y => key x < key y) v

def Sorted (key : V → κ) (l : List V) : Prop := l.Pairwise fun x y => key x ≤ key y

/-- The elements with one key, in their order. -/
def having (key : V → κ) (k : κ) (l : List V) : List V := l.filter fun x => decide (key x = k)

@[simp] theorem insert_nil : insert key v [] = [v] := rfl

theorem insert_cons_of_lt (h : key v < key x) : insert key v (x :: l) = v :: x :: l :=
  List.orderedInsert_cons_of_le _ l h

theorem insert_cons_of_le (h : key x ≤ key v) : insert key v (x :: l) = x :: insert key v l :=
  List.orderedInsert_of_not_le _ l (not_lt.mpr h)

/-- Behind all of the first elements whose keys are not bigger. -/
theorem insert_eq_append (key : V → κ) (v : V) (l : List V) :
    insert key v l = l.takeWhile (fun x => decide (key x ≤ key v)) ++
      v :: l.dropWhile (fun x => decide (key x ≤ key v)) := by
  rw [insert, List.orderedInsert_eq_take_drop]
  simp only [not_lt]

theorem insert_of_forall_le (h : ∀ x ∈ l, key x ≤ key v) : insert key v l = l ++ [v] := by
  induction l with
  | nil => rfl
  | cons x l ih =>
    rw [insert_cons_of_le (h x List.mem_cons_self), ih fun y hy => h y (List.mem_cons_of_mem x hy)]
    rfl

theorem insert_perm (key : V → κ) (v : V) (l : List V) : (insert key v l).Perm (v :: l) :=
  List.perm_orderedInsert _ v l

theorem mem_insert : x ∈ insert key v l ↔ x = v ∨ x ∈ l := List.mem_orderedInsert _

/-- Only the order of the keys matters. -/
theorem insert_map {U κ' : Type*} [LinearOrder κ'] (f : V → U) {key' : U → κ'}
    (hf : ∀ x y, key x < key y ↔ key' (f x) < key' (f y)) (v : V) (l : List V) :
    insert key' (f v) (l.map f) = (insert key v l).map f :=
  (List.map_orderedInsert _ _ f l v (fun x _ => hf x v) fun x _ => hf v x).symm

theorem Sorted.insert (h : Sorted key l) (v : V) : Sorted key (Keyed.insert key v l) := by
  induction l with
  | nil => exact List.pairwise_singleton _ _
  | cons x l ih =>
    have hx : ∀ y ∈ l, key x ≤ key y := fun _ hy => List.rel_of_pairwise_cons h hy
    rcases lt_or_ge (key v) (key x) with hlt | hle
    · rw [insert_cons_of_lt hlt]
      refine .cons (fun y hy => ?_) h
      rcases List.mem_cons.mp hy with rfl | hy
      · exact hlt.le
      · exact hlt.le.trans (hx y hy)
    · rw [insert_cons_of_le hle]
      refine .cons (fun y hy => ?_) (ih h.of_cons)
      rcases mem_insert.mp hy with rfl | hy
      · exact hle
      · exact hx y hy

/-- In a sorted list the new element is the last one with its key. -/
theorem Sorted.having_insert (h : Sorted key l) (v : V) (k : κ) :
    having key k (Keyed.insert key v l) = having key k l ++ having key k [v] := by
  induction l with
  | nil => rfl
  | cons x l ih =>
    rcases lt_or_ge (key v) (key x) with hlt | hle
    · rw [insert_cons_of_lt hlt]
      by_cases hv : key v = k
      · have hnone : having key k (x :: l) = [] := by
          refine List.filter_eq_nil_iff.mpr fun y hy => ?_
          have hxy : key x ≤ key y := by
            rcases List.mem_cons.mp hy with rfl | hy
            · exact le_rfl
            · exact List.rel_of_pairwise_cons h hy
          rw [decide_eq_true_eq]
          exact (hv ▸ hlt.trans_le hxy).ne'
        rw [← List.singleton_append, having, List.filter_append]
        change having key k [v] ++ having key k (x :: l) = _
        rw [hnone, List.append_nil, List.nil_append]
      · simp [having, hv]
    · rw [insert_cons_of_le hle]
      have hrest := ih h.of_cons
      simp only [having, List.filter_cons] at hrest ⊢
      rw [hrest]
      split <;> rfl

theorem Sorted.tail (h : Sorted key l) : Sorted key l.tail := List.Pairwise.tail h

/-- What is left has lost its first elements. -/
theorem having_tail (key : V → κ) (k : κ) (l : List V) :
    having key k l.tail <:+ having key k l :=
  (List.tail_suffix l).filter _

end Keyed
