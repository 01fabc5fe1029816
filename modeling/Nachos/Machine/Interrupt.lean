import Nachos.Lib.Keyed
import Nachos.Threads.Kernel

/-!
# The interrupt hardware

`interrupt.cc`: the interrupt level, the clock, and the queue of the interrupts that are to
occur, with the part of `list.cc` that keeps the queue in order. An interrupt handler is any
code; a call of it is where `CheckIfDue` hands over. The tick counters, and with them the due
times, are `int`s that are taken not to overflow.
-/
namespace Nachos

/-- `enum MachineStatus` of `interrupt.h`. -/
inductive MachineStatus
  | IdleMode | SystemMode | UserMode
  deriving DecidableEq

/-- `enum IntType` of `interrupt.h`. -/
inductive IntType
  | TimerInt | DiskInt | ConsoleWriteInt | ConsoleReadInt | NetworkSendInt | NetworkRecvInt
  deriving DecidableEq

/-- `class ListElement` of `list.h`. -/
structure ListElement (α : Type) where
  item : α
  key : ℕ

namespace ListElement

variable {α : Type}

/-- `List::SortedInsert`: in front of the first element with a bigger key. -/
def sortedInsert (item : α) (sortKey : ℕ) : List (ListElement α) → List (ListElement α)
  | [] => [⟨item, sortKey⟩]
  | e :: l =>
    if sortKey < e.key then ⟨item, sortKey⟩ :: e :: l else e :: sortedInsert item sortKey l

/-- `List::SortedRemove`: the first element, with the list that is left. -/
def sortedRemove : List (ListElement α) → Option (α × ℕ × List (ListElement α))
  | [] => none
  | e :: l => some (e.item, e.key, l)

def Sorted (l : List (ListElement α)) : Prop := l.Pairwise (·.key ≤ ·.key)

theorem sortedInsert_eq_insert (item : α) (sortKey : ℕ) (l : List (ListElement α)) :
    sortedInsert item sortKey l = Keyed.insert key ⟨item, sortKey⟩ l := by
  induction l with
  | nil => rfl
  | cons e l ih =>
    unfold sortedInsert
    split
    · next hlt => exact (Keyed.insert_cons_of_lt hlt).symm
    · next hge =>
      rw [ih]
      exact (Keyed.insert_cons_of_le (Nat.le_of_not_lt hge)).symm

theorem sortedInsert_perm (item : α) (sortKey : ℕ) (l : List (ListElement α)) :
    (sortedInsert item sortKey l).Perm (⟨item, sortKey⟩ :: l) := by
  rw [sortedInsert_eq_insert]
  exact Keyed.insert_perm key _ l

theorem mem_sortedInsert {item : α} {sortKey : ℕ} {l : List (ListElement α)}
    {e : ListElement α} : e ∈ sortedInsert item sortKey l ↔ e = ⟨item, sortKey⟩ ∨ e ∈ l :=
  (sortedInsert_perm item sortKey l).mem_iff.trans List.mem_cons

theorem Sorted.sortedInsert {l : List (ListElement α)} (h : Sorted l) (item : α)
    (sortKey : ℕ) : Sorted (sortedInsert item sortKey l) := by
  rw [sortedInsert_eq_insert]
  exact Keyed.Sorted.insert h _

end ListElement

/-- `class PendingInterrupt`. The number `id` tells one object from the others. -/
structure PendingInterrupt (H : Type) where
  id : ℕ
  handler : H
  arg : BitVec 32
  when : ℕ
  type : IntType
  deriving DecidableEq

/-- The clock in `class Statistics`, in counters that do not overflow. -/
structure Statistics where
  totalTicks : ℕ
  idleTicks : ℕ
  systemTicks : ℕ
  userTicks : ℕ
  deriving DecidableEq

/-- `class Interrupt`, with the clock, and how many interrupts have been scheduled. -/
structure Interrupt (H : Type) where
  level : IntStatus
  pending : List (ListElement (PendingInterrupt H))
  inHandler : Bool
  yieldOnReturn : Bool
  status : MachineStatus
  stats : Statistics
  scheduled : ℕ

namespace Interrupt

variable {H : Type}

/-- `UserTick` of `stats.h`. -/
def userTick : ℕ := 1

/-- `SystemTick` of `stats.h`. -/
def systemTick : ℕ := 10

/-- `Interrupt::Interrupt`. -/
def boot : Interrupt H where
  level := .IntOff
  pending := []
  inHandler := false
  yieldOnReturn := false
  status := .SystemMode
  stats := ⟨0, 0, 0, 0⟩
  scheduled := 0

/-- `Interrupt::ChangeLevel`. -/
def changeLevel (σ : Interrupt H) (now : IntStatus) : Interrupt H := { σ with level := now }

/-- The start of `Interrupt::OneTick`: the clock advances. -/
def advanceTime (σ : Interrupt H) : Interrupt H :=
  if σ.status = .SystemMode then
    { σ with stats := { σ.stats with
      totalTicks := σ.stats.totalTicks + systemTick
      systemTicks := σ.stats.systemTicks + systemTick } }
  else
    { σ with stats := { σ.stats with
      totalTicks := σ.stats.totalTicks + userTick
      userTicks := σ.stats.userTicks + userTick } }

/-- The object `Interrupt::Schedule` makes. -/
def toOccur (σ : Interrupt H) (handler : H) (arg : BitVec 32) (fromNow : ℕ) (type : IntType) :
    PendingInterrupt H :=
  ⟨σ.scheduled, handler, arg, σ.stats.totalTicks + fromNow, type⟩

/-- `Interrupt::Schedule`, which asserts that the time is in the future. -/
def schedule (σ : Interrupt H) (handler : H) (arg : BitVec 32) (fromNow : ℕ) (type : IntType) :
    Option (Interrupt H) :=
  let toOccur := σ.toOccur handler arg fromNow type
  if 0 < fromNow then
    some { σ with
      scheduled := σ.scheduled + 1
      pending := ListElement.sortedInsert toOccur toOccur.when σ.pending }
  else none

/-- The end of `Interrupt::CheckIfDue`, with `toOccur` off the queue and due. When nothing
but the timer is left of an idle machine it goes back; otherwise its handler is called. -/
def invoke (σ : Interrupt H) (toOccur : PendingInterrupt H) (when : ℕ) :
    Interrupt H × Option (PendingInterrupt H) :=
  if σ.status = .IdleMode ∧ toOccur.type = .TimerInt ∧ σ.pending = [] then
    ({ σ with pending := ListElement.sortedInsert toOccur when σ.pending }, none)
  else
    ({ σ with inHandler := true, status := .SystemMode }, some toOccur)

/-- `Interrupt::CheckIfDue` up to the call of the handler of the interrupt that it fires, if
any. `none` where the assertion fails. -/
def checkIfDue (σ : Interrupt H) (advanceClock : Bool) :
    Option (Interrupt H × Option (PendingInterrupt H)) :=
  if σ.level = .IntOff then
    match ListElement.sortedRemove σ.pending with
    | none => some (σ, none)
    | some (toOccur, when, rest) =>
      if advanceClock = true ∧ when > σ.stats.totalTicks then
        some (invoke
          { σ with
            pending := rest
            stats := { σ.stats with
              idleTicks := σ.stats.idleTicks + (when - σ.stats.totalTicks)
              totalTicks := when } } toOccur when)
      else if when > σ.stats.totalTicks then
        some ({ σ with pending := ListElement.sortedInsert toOccur when rest }, none)
      else
        some (invoke { σ with pending := rest } toOccur when)
  else none

/-- What `CheckIfDue` does when the handler has returned; `old` is the status it found. -/
def handlerReturn (σ : Interrupt H) (old : MachineStatus) : Interrupt H :=
  { σ with status := old, inHandler := false }

/-- `Interrupt::YieldOnReturn`. `none` where the assertion fails. -/
def setYieldOnReturn (σ : Interrupt H) : Option (Interrupt H) :=
  if σ.inHandler then some { σ with yieldOnReturn := true } else none

/-- The clock `CheckIfDue` leaves behind. -/
def idleUntil (σ : Interrupt H) (when : ℕ) : Statistics :=
  { σ.stats with
    idleTicks := σ.stats.idleTicks + (when - σ.stats.totalTicks)
    totalTicks := when }

/-- All that a call of `CheckIfDue` may do: find no interrupt, put the first one back because
it is not due or because it is the timer of an idle machine, or call its handler. -/
theorem checkIfDue_cases {σ τ : Interrupt H} {adv : Bool} {o : Option (PendingInterrupt H)}
    (h : checkIfDue σ adv = some (τ, o)) :
    (σ.pending = [] ∧ τ = σ ∧ o = none) ∨
    ∃ e rest, σ.pending = e :: rest ∧
      ((adv = false ∧ σ.stats.totalTicks < e.key ∧ o = none ∧
          τ = { σ with pending := ListElement.sortedInsert e.item e.key rest }) ∨
        ∃ st : Statistics, (st = σ.stats ∧ e.key ≤ σ.stats.totalTicks ∨
            st = σ.idleUntil e.key ∧ σ.stats.totalTicks < e.key) ∧
          ((σ.status = .IdleMode ∧ o = none ∧
              τ = { σ with pending := ListElement.sortedInsert e.item e.key rest, stats := st }) ∨
            (o = some e.item ∧
              τ = { σ with
                pending := rest, stats := st, inHandler := true, status := .SystemMode }))) := by
  unfold checkIfDue at h
  split at h
  case isFalse => cases h
  cases hp : σ.pending with
  | nil =>
    simp only [hp, ListElement.sortedRemove, Option.some.injEq, Prod.mk.injEq] at h
    exact .inl ⟨rfl, h.1.symm, h.2.symm⟩
  | cons e rest =>
    refine .inr ⟨e, rest, rfl, ?_⟩
    simp only [hp, ListElement.sortedRemove] at h
    split at h
    · next hadv =>
      refine .inr ⟨_, .inr ⟨rfl, hadv.2⟩, ?_⟩
      unfold invoke at h
      split at h
      · next hidle => cases h; exact .inl ⟨hidle.1, rfl, rfl⟩
      · cases h; exact .inr ⟨rfl, rfl⟩
    · next hadv =>
      split at h
      · next hlt =>
        cases h
        exact .inl ⟨by simpa [hlt] using hadv, hlt, rfl, rfl⟩
      · next hge =>
        refine .inr ⟨_, .inl ⟨rfl, Nat.le_of_not_lt hge⟩, ?_⟩
        unfold invoke at h
        split at h
        · next hidle => cases h; exact .inl ⟨hidle.1, rfl, rfl⟩
        · cases h; exact .inr ⟨rfl, rfl⟩

/-- With interrupts off the assertion holds. -/
theorem exists_checkIfDue {σ : Interrupt H} (adv : Bool) (h : σ.level = .IntOff) :
    ∃ r, checkIfDue σ adv = some r := by
  unfold checkIfDue
  rw [if_pos h]
  split
  · exact ⟨_, rfl⟩
  · split
    · exact ⟨_, rfl⟩
    · split
      · exact ⟨_, rfl⟩
      · exact ⟨_, rfl⟩

/-- The level is left alone, and `inHandler` is set when a handler is called. -/
theorem checkIfDue_level {σ τ : Interrupt H} {adv : Bool} {o : Option (PendingInterrupt H)}
    (h : checkIfDue σ adv = some (τ, o)) :
    τ.level = σ.level ∧ τ.inHandler = (o.isSome || σ.inHandler) := by
  rcases checkIfDue_cases h with
    ⟨-, rfl, rfl⟩ | ⟨e, rest, -, ⟨-, -, rfl, rfl⟩ | ⟨st, -, ⟨-, rfl, rfl⟩ | ⟨rfl, rfl⟩⟩⟩
  · exact ⟨rfl, rfl⟩
  · exact ⟨rfl, rfl⟩
  · exact ⟨rfl, rfl⟩
  · exact ⟨rfl, rfl⟩

end Interrupt

end Nachos
