import Nachos.Machine.Separation
import Nachos.Userprog.Memory

/-!
# Time sharing

User threads take turns on the processor: `Scheduler::Run` with `SaveUserState`,
`RestoreUserState` and `AddrSpace::RestoreState`. In between any commands run on the machine that
are local: instructions, what an interrupt does to a load that is under way, and what system calls
do by `ReadMem`, `WriteMem` and the registers. Each thread goes on as if the machine were its own.
-/
namespace Nachos

open Bytes (Byte)
open Mips (Machine Context SimM)
open Mips.Machine (layout context)
open Layout (Local Shared alone once)
open Layout.Shared (turn takeTurns only)

/-- The table that `RestoreState` gives to the machine. -/
structure Table where
  pageTable : ℕ → TranslationEntry
  numPages : BitVec 32

/-- What is behind the end of the array is not a valid entry. -/
def AddrSpace.table (s : AddrSpace) : Table := ⟨fun vpn => s.entries.getD vpn default, s.numPages⟩

/-- The machine, and what is kept of each thread. The page table of the current thread is the one
that the machine uses, and its registers are in the machine. -/
structure TimeShared (ι : Type) where
  currentThread : ι
  machine : Machine
  userRegisters : ι → Registers
  space : ι → Table

/-- What a command on the machine does, or a switch to another thread. -/
inductive Slice (ι : Type)
  | exec (c : SimM Unit)
  | run (next : ι)

namespace TimeShared

variable {ι : Type}

/-- The commands with the thread that each is run by. -/
def commands : ι → List (Slice ι) → List (ι × SimM Unit)
  | _, [] => []
  | i, .exec c :: xs => (i, c) :: commands i xs
  | _, .run next :: xs => commands next xs

theorem exec_of_mem_commands {x : ι × SimM Unit} {i : ι} {xs : List (Slice ι)}
    (h : x ∈ commands i xs) : .exec x.2 ∈ xs := by
  induction xs generalizing i with
  | nil => cases h
  | cons y ys ih =>
    cases y with
    | exec c =>
      rcases List.mem_cons.mp h with rfl | h
      · exact List.mem_cons_self
      · exact List.mem_cons_of_mem _ (ih h)
    | run next => exact List.mem_cons_of_mem _ (ih h)

variable [DecidableEq ι] {g g' : TimeShared ι} {i j : ι}

/-- `Thread::SaveUserState`. The page table is where it was. -/
def saveState (g : TimeShared ι) : TimeShared ι :=
  { g with
    userRegisters := Function.update g.userRegisters g.currentThread g.machine.registers
    space := Function.update g.space g.currentThread
      ⟨g.machine.memory.pageTable, g.machine.memory.pageTableSize⟩ }

/-- `Thread::RestoreUserState` and `AddrSpace::RestoreState`. -/
def restoreState (g : TimeShared ι) : TimeShared ι :=
  { g with
    machine :=
      { registers := g.userRegisters g.currentThread
        memory :=
          { g.machine.memory with
            pageTable := (g.space g.currentThread).pageTable
            pageTableSize := (g.space g.currentThread).numPages } } }

/-- `Scheduler::Run`, for the state of the user programs. -/
def run (g : TimeShared ι) (nextThread : ι) : TimeShared ι :=
  restoreState { g.saveState with currentThread := nextThread }

/-- One slice, and how the command in it has ended. -/
def slice (g : TimeShared ι) : Slice ι →
    Option (TimeShared ι × List (ι × Option ExceptionType))
  | .exec c => (once c g.machine).map fun r =>
      ({ g with machine := r.1 }, [(g.currentThread, r.2)])
  | .run next => some (g.run next, [])

def slices : List (Slice ι) → TimeShared ι →
    Option (TimeShared ι × List (ι × Option ExceptionType))
  | [], g => some (g, [])
  | x :: xs, g =>
    match g.slice x with
    | none => none
    | some (g, es) => (slices xs g).map fun r => (r.1, es ++ r.2)

/-- What there is of each thread, wherever it is kept. -/
def shared (g : TimeShared ι) : Shared ι Context Int Byte where
  memory := g.machine.memory.mainMemory
  process i :=
    if i = g.currentThread then g.machine.context
    else ⟨g.userRegisters i, (g.space i).pageTable, (g.space i).numPages⟩

/-- The machine as the thread `i` has it when it runs. -/
def view (g : TimeShared ι) (i : ι) : Machine := g.shared.view layout i

theorem view_currentThread (g : TimeShared ι) : g.view g.currentThread = g.machine :=
  congrArg (layout.join · g.machine.memory.mainMemory) (if_pos rfl)

/-- With the state of the current thread saved, all threads are kept in one place. -/
theorem process_saveState (g : TimeShared ι) (i : ι) : g.shared.process i =
    ⟨g.saveState.userRegisters i, (g.saveState.space i).pageTable,
      (g.saveState.space i).numPages⟩ := by
  by_cases hi : i = g.currentThread
  · subst hi
    simp only [shared, saveState, if_pos, Function.update_self]
    rfl
  · simp only [shared, saveState, if_neg hi, Function.update_of_ne hi]

/-- A switch moves what there is of a thread, and changes nothing. -/
theorem shared_run (g : TimeShared ι) (next : ι) : (g.run next).shared = g.shared := by
  have hprocess : (g.run next).shared.process = g.shared.process := by
    funext i
    rw [process_saveState g]
    by_cases hi : i = next
    · subst hi
      exact if_pos rfl
    · exact if_neg hi
  exact congrArg (Shared.mk g.machine.memory.mainMemory) hprocess

theorem shared_exec (g : TimeShared ι) (m : Machine) :
    ({ g with machine := m } : TimeShared ι).shared = g.shared.put layout g.currentThread m := by
  have hprocess : ({ g with machine := m } : TimeShared ι).shared.process =
      (g.shared.put layout g.currentThread m).process := by
    funext i
    by_cases hi : i = g.currentThread
    · subst hi
      rw [Layout.Shared.process_put_self]
      exact if_pos rfl
    · rw [Layout.Shared.process_put_of_ne _ hi]
      exact (if_neg hi).trans (if_neg hi).symm
  exact congrArg (Shared.mk m.memory.mainMemory) hprocess

/-- Time sharing is taking turns. -/
theorem slices_eq_takeTurns (xs : List (Slice ι)) (g : TimeShared ι) :
    (slices xs g).map (fun r => (r.1.shared, r.2)) =
      takeTurns layout (commands g.currentThread xs) g.shared := by
  induction xs generalizing g with
  | nil => rfl
  | cons x xs ih =>
    cases x with
    | exec c =>
      have hview : g.shared.view layout g.currentThread = g.machine := g.view_currentThread
      simp only [slices, slice, commands, takeTurns, turn, hview]
      cases once c g.machine with
      | none => rfl
      | some r =>
        have hrest := ih { g with machine := r.1 }
        rw [shared_exec] at hrest
        simp only [Option.map_some, ← hrest, Option.map_map]
        rfl
    | run next =>
      have hrest := ih (g.run next)
      rw [shared_run] at hrest
      simp only [slices, slice, commands]
      rw [show (g.run next).currentThread = next from rfl] at hrest
      rw [← hrest, Option.map_map]
      rfl

/-- Valid pages of different threads have different frames. -/
def Apart (g : TimeShared ι) : Prop := g.shared.Apart layout

/-- Every thread goes on as if the machine were its own: what it finds in its registers and in its
pages, the exceptions it causes, and whether the simulator goes down. -/
theorem slices_alone {xs : List (Slice ι)} (hxs : ∀ c, .exec c ∈ xs → Local layout c)
    (hg : g.Apart) :
    (slices xs g = none ↔ ∃ i, alone (only i (commands g.currentThread xs)) (g.view i) = none) ∧
    ∀ g' es, slices xs g = some (g', es) → g'.Apart ∧ ∀ i m, layout.Alike (g.view i) m →
      ∃ m', alone (only i (commands g.currentThread xs)) m = some (m', only i es) ∧
        layout.Alike (g'.view i) m' := by
  have hlocal : ∀ x ∈ commands g.currentThread xs, Local layout x.2 :=
    fun x hx => hxs x.2 (exec_of_mem_commands hx)
  have hturns := slices_eq_takeTurns xs g
  rcases Layout.Shared.takeTurns_alone hlocal hg with ⟨hnone, i, hi⟩ | ⟨g₁, es₁, hsome, hapart, hall⟩
  · rw [hnone, Option.map_eq_none_iff] at hturns
    refine ⟨iff_of_true hturns ⟨i, hi _ (.refl _)⟩, fun g' es h => ?_⟩
    rw [hturns] at h
    cases h
  · rw [hsome] at hturns
    obtain ⟨⟨g₂, es₂⟩, hslices, heq⟩ := Option.map_eq_some_iff.mp hturns
    cases heq
    refine ⟨iff_of_false (by simp [hslices]) ?_, fun g' es h => ?_⟩
    · rintro ⟨i, hi⟩
      obtain ⟨m', halone, -⟩ := hall i _ (.refl _)
      rw [view, halone] at hi
      cases hi
    · rw [hslices] at h
      cases h
      exact ⟨hapart, hall⟩

/-- The threads run in these address spaces. -/
def Has (g : TimeShared ι) (spaces : ι → AddrSpace) : Prop :=
  ∀ i, (g.shared.process i).pageTable = (spaces i).table.pageTable ∧
    (g.shared.process i).pageTableSize = (spaces i).numPages

/-- Every thread about to run in its address space. -/
def start (spaces : ι → AddrSpace) (currentThread : ι) (userRegisters : ι → Registers)
    (mainMemory : Bytes.Memory) : TimeShared ι :=
  restoreState
    { currentThread, userRegisters
      machine := ⟨userRegisters currentThread, ⟨mainMemory, default, 0⟩⟩
      space := fun i => (spaces i).table }

theorem has_start (spaces : ι → AddrSpace) (currentThread : ι) (userRegisters : ι → Registers)
    (mainMemory : Bytes.Memory) : (start spaces currentThread userRegisters mainMemory).Has
      spaces := by
  intro i
  by_cases hi : i = currentThread
  · subst hi
    simp only [start, shared, restoreState, if_pos]
    exact ⟨rfl, rfl⟩
  · have hprocess : (start spaces currentThread userRegisters mainMemory).shared.process i =
        ⟨userRegisters i, (spaces i).table.pageTable, (spaces i).table.numPages⟩ := if_neg hi
    rw [hprocess]
    exact ⟨rfl, rfl⟩

end TimeShared

/-! ## The frames that the kernel gives out -/

/-- A page that can be reached has its frame in the table that the constructor has filled. -/
theorem AddrSpace.frame_of_owns {s : AddrSpace} {c : Context} {p : Int} (h : c.Owns p)
    (htable : c.pageTable = s.table.pageTable) :
    ∃ r ∈ s.frames, p / PageSize = ((BitVec.ofInt 32 r).toNat : Int) := by
  obtain ⟨vpn, -, hvalid, hp⟩ := h
  rw [htable] at hvalid hp
  by_cases hlt : vpn < s.entries.length
  · have hentry : s.table.pageTable vpn = s.entries[vpn] := List.getD_eq_getElem _ _ hlt
    rw [hentry] at hp
    exact ⟨_, List.mem_map_of_mem (List.getElem_mem hlt), hp⟩
  · have hentry : s.table.pageTable vpn = default := List.getD_eq_default _ _ (by omega)
    rw [hentry] at hvalid
    cases hvalid

theorem Frames.toNat_ofInt {m : BitMap} {frames : SpaceId → List Int} (h : Frames m frames)
    {s : SpaceId} {r : Int} (hr : r ∈ frames s) : ((BitVec.ofInt 32 r).toNat : Int) = r := by
  obtain ⟨i, hi, rfl⟩ := (h.marked r).mp ⟨s, hr⟩
  have hlt := (BitMap.mem_marked.mp hi).1
  rw [h.numBits] at hlt
  rw [BitVec.toNat_ofInt]
  omega

variable {initial : ℕ → Int} {tr : List (KEvent SemId Ev)} {σ : Kernel SemId Pc Data}

theorem TimeShared.Has.apart {g : TimeShared SpaceId} (hg : g.Has σ.data.addrSpace)
    (h : (kernel (process initial)).Run tr σ) : g.Apart := by
  have hframes := (memory_run (atomic_run h)).frames
  intro i j hij p hi hj
  obtain ⟨r, hr, hpr⟩ := AddrSpace.frame_of_owns hi (hg i).1
  obtain ⟨r', hr', hpr'⟩ := AddrSpace.frame_of_owns hj (hg j).1
  have heq : r = r' := by
    rw [← hframes.toNat_ofInt hr, ← hframes.toNat_ofInt hr', ← hpr, ← hpr']
  subst heq
  exact hij (hframes.disjoint i j r hr hr')

/-- The threads that run in the address spaces of any run of the kernel share the machine, and each
goes on as if it were its own. -/
theorem time_sharing (h : (kernel (process initial)).Run tr σ) {g : TimeShared SpaceId}
    (hg : g.Has σ.data.addrSpace) {xs : List (Slice SpaceId)}
    (hxs : ∀ c, .exec c ∈ xs → Local layout c) :
    (TimeShared.slices xs g = none ↔
      ∃ i, alone (only i (TimeShared.commands g.currentThread xs)) (g.view i) = none) ∧
    ∀ g' es, TimeShared.slices xs g = some (g', es) → ∀ i m, layout.Alike (g.view i) m →
      ∃ m', alone (only i (TimeShared.commands g.currentThread xs)) m = some (m', only i es) ∧
        layout.Alike (g'.view i) m' := by
  obtain ⟨hnone, hsome⟩ := TimeShared.slices_alone hxs (hg.apart h)
  exact ⟨hnone, fun g' es hrun => (hsome g' es hrun).2⟩

/-- An instruction of a parent, and one of its child. -/
def inTurn : List (Slice SpaceId) :=
  [.exec (Machine.oneInstruction false), .run 1, .exec (Machine.oneInstruction false)]

theorem local_inTurn (c : SimM Unit) (hc : .exec c ∈ inTurn) : Local layout c := by
  simp only [inTurn, List.mem_cons, reduceCtorEq, false_or, List.not_mem_nil, or_false,
    Slice.exec.injEq, or_self] at hc
  subst hc
  infer_instance

/-- Both have two pages. The child does what it would do alone. -/
theorem time_sharing_parent_child : ∃ tr σ g' es, (kernel quiet).Run tr σ ∧
    (σ.data.addrSpace 0).frames = [0, 1] ∧ (σ.data.addrSpace 1).frames = [2, 3] ∧
    TimeShared.slices inTurn (.start σ.data.addrSpace 0 (fun _ => .initRegisters 2) fun _ => 0) =
      some (g', es) ∧
    ∃ m', alone [Machine.oneInstruction false]
        ((TimeShared.start σ.data.addrSpace 0 (fun _ => .initRegisters 2) fun _ => 0).view 1) =
      some (m', only 1 es) ∧ layout.Alike (g'.view 1) m' := by
  obtain ⟨tr, σ, hr, _, hp⟩ := System.exists_run_of_exec (Kernel.boot quiet)
    (Kernel.next quiet)
    (bootSchedule ++ execSchedule ++ joinSchedule ++ startSchedule)
    (fun r => decide ((r.1.data.addrSpace 0).frames = [0, 1] ∧
      (r.1.data.addrSpace 1).frames = [2, 3] ∧
      (TimeShared.slices inTurn
        (.start r.1.data.addrSpace 0 (fun _ => .initRegisters 2) fun _ => 0)).isSome = true))
    (by decide +kernel)
  obtain ⟨h0, h1, hs⟩ := of_decide_eq_true hp
  obtain ⟨⟨g', es⟩, hslices⟩ := Option.isSome_iff_exists.mp hs
  have hshare := time_sharing hr (TimeShared.has_start σ.data.addrSpace 0
    (fun _ => .initRegisters 2) fun _ => 0) local_inTurn
  exact ⟨tr, σ, g', es, hr, h0, h1, hslices, hshare.2 g' es hslices 1 _ (.refl _)⟩

end Nachos
