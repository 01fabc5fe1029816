import Nachos.Machine.Interrupt
import Nachos.Threads.LinkedList

/-!
# Queues of the kernel

The queue of interrupts and the ready list are objects of `class List` (`interrupt.cc`,
`scheduler.cc`).
-/
namespace Nachos

open LinkedList (Allocator Heap Shows)

/-- What is in an element of a sorted list. -/
def ListElement.entry {α : Type} (e : ListElement α) : Entry α := ⟨some e.item, e.key⟩

/-- What is in an element that `Append` has made. -/
def appended {α : Type} (item : α) : Entry α := ⟨some item, 0⟩

namespace Interrupt

variable {H : Type} {σ τ : Interrupt H} {rest : Heap (PendingInterrupt H)}
  {l : LinkedList (PendingInterrupt H)}

/-- The list at `l` is the queue of pending interrupts. -/
abbrev PendingAt (rest : Heap (PendingInterrupt H)) (l : LinkedList (PendingInterrupt H))
    (pending : List (ListElement (PendingInterrupt H))) : Prop :=
  Shows rest l (pending.map ListElement.entry)

theorem pendingAt_sortedInsert {q : List (ListElement (PendingInterrupt H))}
    (h : PendingAt rest l q) (new : Allocator (PendingInterrupt H)) (p : PendingInterrupt H)
    (when : ℕ) : ∃ l', LinkedList.sortedInsert new (some p) when l = some ((), l') ∧
      PendingAt rest l' (ListElement.sortedInsert p when q) := by
  have hq : (ListElement.sortedInsert p when q).map ListElement.entry =
      Keyed.insert Entry.key ⟨some p, when⟩ (q.map ListElement.entry) := by
    rw [ListElement.sortedInsert_eq_insert]
    exact (Keyed.insert_map ListElement.entry (fun _ _ => Int.ofNat_lt.symm) _ q).symm
  obtain ⟨l', hrun, hl'⟩ := h.sortedInsert new (some p) when
  refine ⟨l', hrun, ?_⟩
  rw [PendingAt, hq]
  exact hl'

theorem pendingAt_sortedRemove {q rest' : List (ListElement (PendingInterrupt H))}
    {p : PendingInterrupt H} {when : ℕ} (h : PendingAt rest l q)
    (hq : ListElement.sortedRemove q = some (p, when, rest')) :
    ∃ l', LinkedList.sortedRemove true l = some ((some p, some (when : Int)), l') ∧
      PendingAt rest l' rest' := by
  cases q with
  | nil => cases hq
  | cons e q =>
    cases hq
    exact h.sortedRemove true

/-- `Schedule` puts the new interrupt into the list. -/
theorem schedule_pendingAt {handler : H} {arg : BitVec 32} {fromNow : ℕ} {type : IntType}
    (h : PendingAt rest l σ.pending) (hs : σ.schedule handler arg fromNow type = some τ)
    (new : Allocator (PendingInterrupt H)) :
    ∃ l', LinkedList.sortedInsert new (some (σ.toOccur handler arg fromNow type))
        (σ.toOccur handler arg fromNow type).when l = some ((), l') ∧
      PendingAt rest l' τ.pending := by
  unfold schedule at hs
  split at hs
  · cases hs
    exact pendingAt_sortedInsert h new _ _
  · cases hs

end Interrupt

namespace Kernel

open Concurrent (Tid)

variable {S Pc D : Type} {σ : Kernel S Pc D} {rest : Heap Tid} {l : LinkedList Tid}
  {ready : List Tid} {t next : Tid}

/-- The list at `l` is the ready list. -/
abbrev ReadyAt (rest : Heap Tid) (l : LinkedList Tid) (ready : List Tid) : Prop :=
  Shows rest l (ready.map appended)

/-- `ReadyToRun` appends the thread. -/
theorem readyToRun_readyAt (h : ReadyAt rest l σ.readyList) (t : Tid) (new : Allocator Tid) :
    ∃ l', LinkedList.append new (some t) l = some ((), l') ∧
      ReadyAt rest l' (σ.readyToRun t).readyList := by
  have hready : (σ.readyToRun t).readyList.map appended =
      σ.readyList.map appended ++ [appended t] := List.map_append
  obtain ⟨l', hrun, hl'⟩ := h.append new (some t)
  refine ⟨l', hrun, ?_⟩
  rw [ReadyAt, hready]
  exact hl'

/-- `FindNextToRun` is the first thread, unless there is none. -/
theorem remove_readyAt (h : ReadyAt rest l ready) :
    ∃ l', LinkedList.remove l = some (ready.head?, l') ∧ ReadyAt rest l' ready.tail := by
  obtain ⟨l', hrun, hl'⟩ := h.sortedRemove false
  refine ⟨l', ?_, ?_⟩
  · rw [LinkedList.remove, Command.bind_of_some hrun]
    cases ready <;> rfl
  · rw [ReadyAt, List.map_tail]
    exact hl'

end Kernel

end Nachos
