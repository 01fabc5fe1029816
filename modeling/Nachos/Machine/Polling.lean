import Mathlib.Data.List.Rotate
import Nachos.Machine.InterruptQueue

/-!
# Polling the interrupt queue

`CheckIfDue` takes the first interrupt off the queue and, when it is not due, puts it back.
`SortedInsert` puts it behind the others of its tick.
-/
namespace Nachos

namespace ListElement

variable {α : Type} {e x : ListElement α} {l rest : List (ListElement α)}

/-- A new element goes behind all that have its key. -/
theorem sortedInsert_eq (item : α) (sortKey : ℕ) (l : List (ListElement α)) :
    sortedInsert item sortKey l = l.takeWhile (fun x => decide (x.key ≤ sortKey)) ++
      ⟨item, sortKey⟩ :: l.dropWhile (fun x => decide (x.key ≤ sortKey)) := by
  rw [sortedInsert_eq_insert]
  exact Keyed.insert_eq_append key _ l

/-- The first element, taken off and put back, is in its place again exactly if no other one has
its key. -/
theorem putBack_eq_iff (h : Sorted (e :: rest)) :
    sortedInsert e.item e.key rest = e :: rest ↔ ∀ x ∈ rest, x.key = e.key → x = e := by
  induction rest with
  | nil =>
    constructor
    · intro _ x hx
      cases hx
    · intro _
      rfl
  | cons x rest ih =>
    have hle : e.key ≤ x.key := List.rel_of_pairwise_cons h List.mem_cons_self
    have hlater : ∀ y ∈ rest, x.key ≤ y.key := fun y hy => List.rel_of_pairwise_cons h.of_cons hy
    have hrest : Sorted (e :: rest) := by
      refine .cons (fun y hy => ?_) h.of_cons.of_cons
      exact List.rel_of_pairwise_cons h (List.mem_cons_of_mem x hy)
    unfold sortedInsert
    by_cases hlt : e.key < x.key
    · rw [if_pos hlt]
      refine iff_of_true rfl fun y hy hkey => ?_
      rcases List.mem_cons.mp hy with rfl | hy
      · omega
      · have := hlater y hy
        omega
    · rw [if_neg hlt, List.cons.injEq]
      constructor
      · rintro ⟨rfl, htail⟩ y hy hkey
        rcases List.mem_cons.mp hy with rfl | hy
        · rfl
        · exact (ih hrest).mp htail y hy hkey
      · intro hall
        have hx : x = e := hall x List.mem_cons_self (by omega)
        refine ⟨hx, ?_⟩
        rw [hx]
        exact (ih hrest).mpr fun y hy hkey => hall y (List.mem_cons_of_mem x hy) hkey

end ListElement

namespace Interrupt

open ListElement (Sorted sortedInsert sortedRemove)

variable {H : Type} {σ τ : Interrupt H} {m r : List (PendingInterrupt H)}
  {e : ListElement (PendingInterrupt H)} {rest : List (ListElement (PendingInterrupt H))}

/-- No interrupt is due. -/
def NoneDue (σ : Interrupt H) : Prop := ∀ e ∈ σ.pending, σ.stats.totalTicks < e.key

/-- No other interrupt has the tick of the first one. -/
def FirstAlone (σ : Interrupt H) : Prop :=
  ∀ e rest, σ.pending = e :: rest → ∀ x ∈ rest, x.key = e.key → x = e

theorem checkIfDue_nil (hlevel : σ.level = .IntOff) (hp : σ.pending = []) :
    σ.checkIfDue false = some (σ, none) := by
  unfold checkIfDue
  rw [if_pos hlevel, hp]
  rfl

theorem checkIfDue_putBack (hlevel : σ.level = .IntOff) (hdue : NoneDue σ)
    (hp : σ.pending = e :: rest) :
    σ.checkIfDue false = some ({ σ with pending := sortedInsert e.item e.key rest }, none) := by
  have hlt : σ.stats.totalTicks < e.key := hdue e (hp ▸ List.mem_cons_self)
  unfold checkIfDue
  rw [if_pos hlevel, hp]
  show (if _ then _ else if _ then _ else _) = _
  rw [if_neg fun h => absurd h.1 Bool.false_ne_true, if_pos hlt]

theorem checkIfDue_eq_self_iff (hlevel : σ.level = .IntOff) (hsorted : Sorted σ.pending)
    (hdue : NoneDue σ) : σ.checkIfDue false = some (σ, none) ↔ FirstAlone σ := by
  cases hp : σ.pending with
  | nil =>
    refine iff_of_true (checkIfDue_nil hlevel hp) fun e rest he => ?_
    rw [hp] at he
    cases he
  | cons e rest =>
    have hsame : σ.checkIfDue false = some (σ, none) ↔ sortedInsert e.item e.key rest = e :: rest := by
      rw [checkIfDue_putBack hlevel hdue hp, Option.some.injEq, Prod.mk.injEq, ← hp]
      constructor
      · rintro ⟨h, -⟩
        exact congrArg Interrupt.pending h
      · intro h
        rw [h]
        exact ⟨rfl, rfl⟩
    rw [hp] at hsorted
    rw [hsame, ListElement.putBack_eq_iff hsorted]
    constructor
    · intro h e' rest' he
      rw [hp] at he
      cases he
      exact h
    · intro h
      exact h e rest hp

/-- When nothing is due `CheckIfDue(FALSE)` fires nothing, and leaves the queue as it was exactly if
no other interrupt has the tick of the first one: that one goes behind those of its tick. Removing
the first element of a list and inserting it again is the identity under the same condition. -/
theorem polled_unchanged_iff (hlevel : σ.level = .IntOff) (hsorted : Sorted σ.pending)
    (hdue : NoneDue σ) :
    (∃ τ, σ.checkIfDue false = some (τ, none) ∧ ∀ e rest, σ.pending = e :: rest → τ.pending =
      rest.takeWhile (fun x => decide (x.key ≤ e.key)) ++
        e :: rest.dropWhile (fun x => decide (x.key ≤ e.key))) ∧
    (σ.checkIfDue false = some (σ, none) ↔ FirstAlone σ) ∧
    ∀ e rest, σ.pending = e :: rest → sortedRemove σ.pending = some (e.item, e.key, rest) ∧
      (sortedInsert e.item e.key rest = σ.pending ↔ FirstAlone σ) := by
  have hself := checkIfDue_eq_self_iff hlevel hsorted hdue
  refine ⟨?_, hself, ?_⟩
  · cases hp : σ.pending with
    | nil =>
      refine ⟨σ, checkIfDue_nil hlevel hp, fun e rest he => ?_⟩
      cases he
    | cons e rest =>
      refine ⟨_, checkIfDue_putBack hlevel hdue hp, fun e' rest' he => ?_⟩
      cases he
      exact ListElement.sortedInsert_eq _ _ _
  · intro e rest hp
    refine ⟨by rw [hp]; rfl, ?_⟩
    rw [← hself, checkIfDue_putBack hlevel hdue hp, Option.some.injEq, Prod.mk.injEq]
    constructor
    · intro h
      rw [h]
      exact ⟨rfl, rfl⟩
    · rintro ⟨h, -⟩
      exact congrArg Interrupt.pending h

/-- Two interrupts, for the ticks 5 and 6. -/
theorem polled_unchanged_apart : ∃ σ : Interrupt Unit,
    (boot.schedule () 0 5 .DiskInt).bind (·.schedule () 0 6 .NetworkSendInt) = some σ ∧
    σ.checkIfDue false = some (σ, none) := by
  refine ⟨_, rfl, (polled_unchanged_iff rfl ?_ ?_).2.1.mpr ?_⟩
  · exact List.pairwise_pair.mpr (by decide)
  · intro e he
    rcases List.mem_pair.mp he with rfl | rfl
    · decide
    · decide
  · intro e rest he x hx hkey
    cases he
    rw [List.mem_singleton.mp hx] at hkey
    exact absurd hkey (by decide)

/-- Two interrupts for tick 5, and the queue polled once. -/
theorem polled_swaps : ∃ σ τ : Interrupt Unit,
    (boot.schedule () 0 5 .DiskInt).bind (·.schedule () 0 5 .NetworkSendInt) = some σ ∧
    σ.level = .IntOff ∧ Sorted σ.pending ∧ NoneDue σ ∧ σ.checkIfDue false = some (τ, none) ∧
    σ.pending.map (·.item.type) = [.DiskInt, .NetworkSendInt] ∧
    τ.pending.map (·.item.type) = [.NetworkSendInt, .DiskInt] := by
  refine ⟨_, _, rfl, rfl, List.pairwise_pair.mpr (by decide), ?_, rfl, rfl, rfl⟩
  intro e he
  rcases List.mem_pair.mp he with rfl | rfl
  · decide
  · decide

/-! ## Many polls -/

/-- The interrupts that the hardware has scheduled are all different, so the first one is alone
exactly if all others are for later ticks. -/
theorem Queue.firstAlone_iff (h : Queue m r σ) : FirstAlone σ ↔
    ∀ e rest, σ.pending = e :: rest → ∀ x ∈ rest, e.key < x.key := by
  constructor
  · intro hfirst e rest hp x hx
    have hsorted := h.sorted
    rw [hp] at hsorted
    have hle : e.key ≤ x.key := List.rel_of_pairwise_cons hsorted hx
    have hitems : (items σ).Nodup := (List.nodup_append.mp (h.perm.nodup_iff.mpr h.nodup)).1
    rw [items, hp, List.map_cons, List.nodup_cons] at hitems
    by_contra hlt
    have hxe : x = e := hfirst e rest hp x hx (by omega)
    exact hitems.1 (hxe ▸ List.mem_map_of_mem hx)
  · intro hlater e rest hp x hx hkey
    have := hlater e rest hp x hx
    omega

/-- What a poll does to the list when nothing is due. -/
def putBack (l : List (ListElement (PendingInterrupt H))) : List (ListElement (PendingInterrupt H)) :=
  match sortedRemove l with
  | none => l
  | some (toOccur, when, rest) => sortedInsert toOccur when rest

theorem putBack_tied {k : ℕ} {tied later : List (ListElement (PendingInterrupt H))}
    (htied : ∀ x ∈ tied, x.key = k) (hlater : ∀ x ∈ later, k < x.key) (hne : tied ≠ []) :
    putBack (tied ++ later) = tied.rotate 1 ++ later := by
  cases tied with
  | nil => exact absurd rfl hne
  | cons e tied =>
    have he := htied e List.mem_cons_self
    have htake : ∀ x ∈ tied, decide (x.key ≤ e.key) = true := by
      intro x hx
      have := htied x (List.mem_cons_of_mem e hx)
      simp only [decide_eq_true_eq]
      omega
    have hstop : later.takeWhile (fun x => decide (x.key ≤ e.key)) = [] ∧
        later.dropWhile (fun x => decide (x.key ≤ e.key)) = later := by
      cases later with
      | nil => exact ⟨rfl, rfl⟩
      | cons x later =>
        have hlt : ¬x.key ≤ e.key := by
          have := hlater x List.mem_cons_self
          omega
        simp [hlt]
    have hrotate : (e :: tied).rotate 1 = tied ++ [e] := by
      rw [List.rotate_cons_succ, List.rotate_zero]
    show sortedInsert e.item e.key (tied ++ later) = _
    rw [ListElement.sortedInsert_eq, List.takeWhile_append_of_pos htake,
      List.dropWhile_append_of_pos htake, hstop.1, hstop.2, List.append_nil, hrotate,
      List.append_assoc]
    rfl

/-- The interrupts of the first tick are turned by one place with every poll. -/
theorem iterate_putBack (n : ℕ) {k : ℕ} {tied later : List (ListElement (PendingInterrupt H))}
    (htied : ∀ x ∈ tied, x.key = k) (hlater : ∀ x ∈ later, k < x.key) (hne : tied ≠ []) :
    putBack^[n] (tied ++ later) = tied.rotate n ++ later := by
  induction n with
  | zero => rw [Function.iterate_zero, id, List.rotate_zero]
  | succ n ih =>
    have hmem : ∀ x ∈ tied.rotate n, x.key = k := fun x hx => htied x (List.mem_rotate.mp hx)
    rw [Function.iterate_succ_apply', ih, putBack_tied hmem hlater fun h =>
      hne (List.rotate_eq_nil_iff.mp h), List.rotate_rotate]

end Interrupt

end Nachos
