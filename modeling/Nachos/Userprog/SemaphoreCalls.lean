import Nachos.Threads.STable
import Nachos.Threads.DataRefinement
import Nachos.Threads.Refinement
import Nachos.Threads.SemaphoreValue

/-!
# The semaphore system calls

`CreateSemaphore`, `Wait` and `Signal` of `exception.cc`, made by any number of processes in any
order. The table they share is a parameter, so that the table of the source can be compared with
a map.
-/
namespace Nachos

open Concurrent

/-- What the system calls need of a table: an empty one, `Create` with its result, and the
semaphore that `Wait` and `Signal` act on. -/
structure SemTable (T : Type) where
  empty : T
  create : T → CString → SemObject → Option (Int × T)
  find : T → CString → Option (Option SemObject)

/-- `semTab` of `system.cc`. -/
def STable.ops : SemTable STable := ⟨STable.empty, STable.create, STable.find⟩

def SemMap.ops : SemTable SemMap := ⟨∅, SemMap.create, SemMap.find⟩

/-- The table, and how many semaphores have been made. -/
structure SemData (T : Type) where
  table : T
  created : ℕ

def SemData.map {T U : Type} (f : T → U) (d : SemData T) : SemData U := ⟨f d.table, d.created⟩

inductive SemCall
  | create (name : CString) (semval : BitVec 32)
  | wait (name : CString)
  | signal (name : CString)

/-- The results of the calls. `sem` is the object a `create` makes, if it does. -/
inductive SemEvent
  | create (name : CString) (sem : SemObject) (result : Int)
  | wait (name : CString) (result : Int)
  | signal (name : CString) (result : Int)
  deriving DecidableEq

/-- Where a process is. -/
inductive SemPc
  | user
  | waiting (name : CString) (sem : SemObject)
  | waited (name : CString)
  | signalling (name : CString) (sem : SemObject)
  | signalled (name : CString)
  | tick
  | yield
  | fork
  | exit
  deriving DecidableEq

/-- What a process does next: a system call, an instruction of its own, `Yield`, `Exec` or
`Exit`. -/
inductive SemChoice
  | call (c : SemCall)
  | tick
  | yield
  | fork
  | exit

namespace SemTable

variable {T : Type}

/-- A system call up to its call of `P` or `V`, where interrupts are first re-enabled. -/
def call (ops : SemTable T) (d : SemData T) :
    SemCall → Option (SemPc × SemData T × List SemEvent)
  | .create name semval =>
    (ops.create d.table name ⟨d.created, semval⟩).map fun r =>
      (.user, ⟨r.2, if r.1 = 0 then d.created + 1 else d.created⟩,
        [.create name ⟨d.created, semval⟩ r.1])
  | .wait name =>
    (ops.find d.table name).map fun
      | some sem => (.waiting name sem, d, [])
      | none => (.user, d, [.wait name (-1)])
  | .signal name =>
    (ops.find d.table name).map fun
      | some sem => (.signalling name sem, d, [])
      | none => (.user, d, [.signal name (-1)])

def user (ops : SemTable T) (c : SemChoice) (d : SemData T) :
    Option (SemPc × SemData T × List SemEvent) :=
  match c with
  | .call c => ops.call d c
  | .tick => some (.tick, d, [])
  | .yield => some (.yield, d, [])
  | .fork => some (.fork, d, [])
  | .exit => some (.exit, d, [])

/-- The processes, with one more at each `Exec`. -/
def program (ops : SemTable T) : Program SemObject SemPc (SemData T) SemEvent SemChoice where
  code _ pc :=
    match pc with
    | .user => .act ops.user
    | .waiting name sem => .P sem (.waited name)
    | .waited name => .act fun _ d => some (.user, d, [.wait name 0])
    | .signalling name sem => .V sem (.signalled name)
    | .signalled name => .act fun _ d => some (.user, d, [.signal name 0])
    | .tick => .tick .user
    | .yield => .yield .user
    | .fork => .fork .user (fun _ => .user) fun _ d => d
    | .exit => .finish
  value s := s.initialValue.toInt
  start := .user
  data := ⟨ops.empty, 0⟩
  device _ := false
  switchOut _ d := d
  switchIn _ d := d
  interrupt d := d

end SemTable

namespace STable

variable {d d' : SemData STable} {c : SemChoice} {k : SemPc} {es : List SemEvent}

/-- A system call on the table is the call on the map. -/
theorem call_refines (h : d.table.WellFormed) (c : SemCall) :
    (ops.call d c).map (Prod.map id (Prod.map (SemData.map toMap) id)) =
      SemMap.ops.call (d.map toMap) c := by
  cases c with
  | create name semval =>
    have hcreate := (create_spec h name ⟨d.created, semval⟩).1
    simp only [SemTable.call, ops, SemMap.ops, SemData.map]
    rw [← hcreate, Option.map_map, Option.map_map]
    rfl
  | wait name =>
    have hfind : d.table.find name = SemMap.find d.table.toMap name := find_eq h
    simp only [SemTable.call, ops, SemMap.ops, SemData.map]
    rw [← hfind, Option.map_map]
    congr 1
    funext o
    cases o <;> rfl
  | signal name =>
    have hfind : d.table.find name = SemMap.find d.table.toMap name := find_eq h
    simp only [SemTable.call, ops, SemMap.ops, SemData.map]
    rw [← hfind, Option.map_map]
    congr 1
    funext o
    cases o <;> rfl

theorem program_refines (h : d.table.WellFormed) :
    ops.program.RefinesAt SemMap.ops.program (SemData.map toMap) d where
  code t pc := by
    cases pc with
    | user =>
      refine .act fun c => ?_
      cases c with
      | call c => exact call_refines h c
      | _ => rfl
    | waiting name sem => exact .P sem _
    | waited name => exact .act fun _ => rfl
    | signalling name sem => exact .V sem _
    | signalled name => exact .act fun _ => rfl
    | tick => exact .tick _
    | yield => exact .yield _
    | fork => exact .fork _ _ fun _ => rfl
    | exit => exact .finish
  device := rfl
  switchOut _ := rfl
  switchIn _ := rfl
  interrupt := rfl

theorem boot_mapData :
    (Kernel.boot ops.program).mapData (SemData.map toMap) = Kernel.boot SemMap.ops.program := by
  have hempty : empty.toMap = ∅ := by
    simp [toMap, empty]
  simp only [Kernel.mapData, Kernel.boot, SemTable.program, SemData.map, ops, SemMap.ops, hempty]

theorem wellFormed_user (h : d.table.WellFormed) (hu : ops.user c d = some (k, d', es)) :
    d'.table.WellFormed := by
  cases c with
  | call c =>
    cases c with
    | create name semval =>
      obtain ⟨⟨r, u⟩, hc, he⟩ := Option.map_eq_some_iff.mp hu
      cases he
      exact ((create_spec h name _).2 r u hc).1
    | wait name =>
      obtain ⟨o, -, he⟩ := Option.map_eq_some_iff.mp hu
      cases o <;> cases he <;> exact h
    | signal name =>
      obtain ⟨o, -, he⟩ := Option.map_eq_some_iff.mp hu
      cases o <;> cases he <;> exact h
  | _ =>
    cases hu
    exact h

/-- The table is changed by `Create` only. -/
theorem wellFormed_atomic {tr : List (Event SemObject SemEvent)}
    {a : State SemObject SemPc (SemData STable)} (hr : (atomic ops.program).Run tr a) :
    a.data.table.WellFormed := by
  refine hr.invariant (I := fun _ a => a.data.table.WellFormed) ?_ ?_
  · rintro a rfl
    exact wellFormed_empty
  · intro tr a es b _ h hs
    cases hs with
    | P _ hc _ => exact h
    | V _ hc => exact h
    | handler hd => exact h
    | yield _ hc => exact h
    | @fork t _ _ _ _ hc =>
      cases hpc : a.pc t <;> simp only [SemTable.program, hpc] at hc <;> cases hc
      exact h
    | @act t f _ _ _ _ _ hc hf =>
      cases hpc : a.pc t <;> simp only [SemTable.program, hpc] at hc <;> cases hc
      · exact wellFormed_user h hf
      · cases hf
        exact h
      · cases hf
        exact h
    | hook hd => cases hd <;> exact h

end STable

open STable

variable {tr : List (KEvent SemObject SemEvent)} {σ : Kernel SemObject SemPc (SemData STable)}

theorem wellFormed_run (h : (kernel ops.program).Run tr σ) : σ.data.table.WellFormed :=
  wellFormed_atomic (atomic_run h)

/-- The table is a map of at most ten entries. Every run of the processes on it is one on the
map, with the same results of all calls and the same operations on the same semaphores; its bit
map and its array agree, and a `Create` that fails leaves both as they are. -/
theorem stable_is_map (h : (kernel ops.program).Run tr σ) :
    (kernel SemMap.ops.program).Run tr (σ.mapData (SemData.map toMap)) ∧
      σ.data.table.WellFormed ∧ σ.data.table.toMap.keys.card ≤ MAX_SEMAPHORE ∧
      ∀ name sem u, σ.data.table.create name sem = some (-1, u) → u = σ.data.table := by
  have hwf := wellFormed_run h
  refine ⟨?_, hwf, ?_, fun name sem u hc => ?_⟩
  · exact mapData_run h boot_mapData fun hr => program_refines (wellFormed_run hr)
  · have hcard := BitMap.card_marked_add_numClear σ.data.table.bm
    rw [card_keys_toMap hwf]
    rw [hwf.numBits] at hcard
    omega
  · exact ((create_spec hwf name sem).2 (-1) u hc).2 rfl

/-- The name `"m"`. -/
def CString.m : CString := ⟨[109], by decide⟩

/-- A process creates `m`, cannot do so again, and signals it. -/
theorem stable_is_map_m : ∃ tr σ, (kernel ops.program).Run tr σ ∧
    (kernel SemMap.ops.program).Run tr (σ.mapData (SemData.map toMap)) ∧
    .sync (.act 0 (.create .m ⟨0, 0⟩ 0)) ∈ tr ∧ .sync (.act 0 (.create .m ⟨1, 5⟩ (-1))) ∈ tr ∧
    .sync (.V (some 0) ⟨0, 0⟩) ∈ tr ∧ .sync (.act 0 (.signal .m 0)) ∈ tr := by
  obtain ⟨tr, σ, hr, _, hp⟩ := System.exists_run_of_exec (Kernel.boot ops.program)
    (Kernel.next ops.program)
    [.cpu (.call (.create .m 0)), .cpu (.call (.create .m 5)), .cpu (.call (.signal .m)),
      .cpu .tick, .cpu .tick, .cpu .tick]
    (fun r => decide (KEvent.sync (.act 0 (.create .m ⟨0, 0⟩ 0)) ∈ r.2 ∧
      KEvent.sync (.act 0 (.create .m ⟨1, 5⟩ (-1))) ∈ r.2 ∧
      KEvent.sync (.V (some 0) ⟨0, 0⟩) ∈ r.2 ∧
      KEvent.sync (.act 0 (.signal .m 0)) ∈ r.2)) (by decide +kernel)
  have hp := of_decide_eq_true hp
  exact ⟨tr, σ, hr, (stable_is_map hr).1, hp⟩

/-! ## What the semaphores promise -/

/-- A call of `CreateSemaphore` has made `sem` and returned `0`. -/
def Created (tr : List (KEvent SemObject SemEvent)) (sem : SemObject) : Prop :=
  ∃ t name, .sync (.act t (.create name sem 0)) ∈ tr

/-- The value is not negative, and no more calls of `Wait` have got past the semaphore than
its initial value and the calls of `Signal` allow. -/
structure Blocks (tr : List (KEvent SemObject SemEvent))
    (σ : Kernel SemObject SemPc (SemData STable)) (sem : SemObject) : Prop where
  nonneg : 0 ≤ (σ.sem sem).value
  bounded : (completedP sem tr : Int) ≤ max sem.initialValue.toInt 0 + completedV sem tr

/-- No semaphore is created with a negative value, and none is signalled at the largest. -/
structure Admitted (σ : Kernel SemObject SemPc (SemData STable))
    (es : List (KEvent SemObject SemEvent)) : Prop where
  semval : ∀ t name sem, .sync (.act t (.create name sem 0)) ∈ es → 0 ≤ sem.initialValue.toInt
  signal : ∀ sem, NoOverflow sem σ es

/-- The test of one event. -/
def admits (σ : Kernel SemObject SemPc (SemData STable)) : KEvent SemObject SemEvent → Bool
  | .sync (.act _ (.create _ sem r)) => r ≠ 0 || 0 ≤ sem.initialValue.toInt
  | .sync (.V _ sem) => (σ.sem sem).value < 2 ^ 31 - 1
  | _ => true

instance (es : List (KEvent SemObject SemEvent)) : Decidable (Admitted σ es) :=
  decidable_of_iff (es.all (admits σ) = true) <| by
    rw [List.all_eq_true]
    constructor
    · intro h
      refine ⟨fun t name sem hm => ?_, fun sem t hm => ?_⟩
      · simpa [admits] using h _ hm
      · simpa [admits] using h _ hm
    · intro h e hm
      unfold admits
      split
      · rename_i t name sem r
        by_cases hr : r = 0
        · subst hr
          simpa using h.semval t name sem hm
        · simp [hr]
      · rename_i t sem
        simpa using h.signal sem t hm
      · rfl

theorem created_nonneg {sem : SemObject} (h : ((kernel ops.program).restrict Admitted).Run tr σ)
    (hc : Created tr sem) : 0 ≤ sem.initialValue.toInt := by
  induction h with
  | start _ =>
    obtain ⟨t, name, hm⟩ := hc
    cases hm
  | next _ hs ih =>
    obtain ⟨t, name, hm⟩ := hc
    rcases List.mem_append.mp hm with hm | hm
    · exact ih ⟨t, name, hm⟩
    · exact hs.2.semval t name sem hm

theorem noOverflow_run (sem : SemObject) (h : ((kernel ops.program).restrict Admitted).Run tr σ) :
    ((kernel ops.program).restrict (NoOverflow sem)).Run tr σ := by
  induction h with
  | start hi => exact .start hi
  | next _ hs ih => exact .next ih ⟨hs.1, hs.2.signal sem⟩

/-- In every run in which no semaphore is created with a negative value or signalled at the
largest one, each semaphore keeps its promise. -/
theorem semaphores_block {sem : SemObject}
    (h : ((kernel ops.program).restrict Admitted).Run tr σ) (hc : Created tr sem) :
    Blocks tr σ sem := by
  have h0 := created_nonneg h hc
  have h1 : sem.initialValue.toInt ≤ 2 ^ 31 - 1 := by
    have := BitVec.toInt_lt (x := sem.initialValue)
    omega
  have hi : SemaphoreInv ops.program sem tr σ := semaphoreInv_run h0 h1 (noOverflow_run sem h)
  refine ⟨hi.nonneg, ?_⟩
  have hb : (σ.sem sem).value = sem.initialValue.toInt + completedV sem tr - completedP sem tr :=
    hi.balance
  have := hi.nonneg
  have := le_max_left sem.initialValue.toInt 0
  omega

/-- A `Wait` on a semaphore created with `1` gets past it. -/
theorem semaphores_block_one : ∃ tr σ, ((kernel ops.program).restrict Admitted).Run tr σ ∧
    Created tr ⟨0, 1⟩ ∧ Blocks tr σ ⟨0, 1⟩ ∧ completedP ⟨0, 1⟩ tr = 1 := by
  obtain ⟨tr, σ, hr, _, hp⟩ := System.exists_run_of_exec (Kernel.boot ops.program)
    (System.guarded (Kernel.next ops.program) fun σ es => decide (Admitted σ es))
    [.cpu (.call (.create .m 1)), .cpu (.call (.wait .m)), .cpu .tick, .cpu .tick]
    (fun r => decide (KEvent.sync (.act 0 (.create .m ⟨0, 1⟩ 0)) ∈ r.2 ∧ completedP ⟨0, 1⟩ r.2 = 1))
    (by decide +kernel)
  have hr : ((kernel ops.program).restrict Admitted).Run tr σ :=
    hr.of_guarded fun σ es hc => of_decide_eq_true hc
  obtain ⟨hc, hP⟩ := of_decide_eq_true hp
  exact ⟨tr, σ, hr, ⟨0, .m, hc⟩, semaphores_block hr ⟨0, .m, hc⟩, hP⟩

/-- `CreateSemaphore("m", -1)` returns `0`, and a `Wait` on it does not block. -/
theorem semaphore_created_negative : ∃ tr σ, (kernel ops.program).Run tr σ ∧
    Created tr ⟨0, -1⟩ ∧ (σ.sem ⟨0, -1⟩).value = -2 ∧ completedP ⟨0, -1⟩ tr = 1 ∧
    completedV ⟨0, -1⟩ tr = 0 ∧ ¬Blocks tr σ ⟨0, -1⟩ := by
  obtain ⟨tr, σ, hr, _, hp⟩ := System.exists_run_of_exec (Kernel.boot ops.program)
    (Kernel.next ops.program)
    [.cpu (.call (.create .m (-1))), .cpu (.call (.wait .m)), .cpu .tick, .cpu .tick]
    (fun r => decide (KEvent.sync (.act 0 (.create .m ⟨0, -1⟩ 0)) ∈ r.2 ∧
      (r.1.sem ⟨0, -1⟩).value = -2 ∧ completedP ⟨0, -1⟩ r.2 = 1 ∧ completedV ⟨0, -1⟩ r.2 = 0))
    (by decide +kernel)
  obtain ⟨hc, hv, hP, hV⟩ := of_decide_eq_true hp
  refine ⟨tr, σ, hr, ⟨0, .m, hc⟩, hv, hP, hV, fun hb => ?_⟩
  have := hb.nonneg
  rw [hv] at this
  omega

end Nachos
