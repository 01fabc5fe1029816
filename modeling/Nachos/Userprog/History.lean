import Nachos.Lib.Lock
import Nachos.Threads.History
import Nachos.Userprog.ProcessTable

/-!
# A history of the processes

Notes beside the data: who called `ExecUpdate` with which name, who forked whom, what
`ExecUpdate` returned, and what a new process found when it loaded its program.
-/
namespace Nachos

open Concurrent

inductive Note
  /-- `ExecUpdate(name)` is past `bmsem->P()`. -/
  | called (t : Tid) (name : String)
  | forked (t u : Tid)
  /-- `ExecUpdate` returns `id`. -/
  | returned (t : Tid) (id : Int)
  /-- `StartProcess_2(id)` has asked for its file name. -/
  | loads (t : Tid) (id : Int) (name : Option String)
  /-- It has opened the file, or not, and read this header. -/
  | found (t : Tid) (opened : Bool) (h : NoffHeader)
  /-- The check that memory is sufficient, with `free` bits clear. -/
  | checked (t : Tid) (h : NoffHeader) (free : ℕ)
  deriving DecidableEq

/-- The thread a note is by. -/
def Note.thread : Note → Tid
  | .called t _ | .forked t _ | .returned t _ | .loads t _ _ | .found t _ _ | .checked t _ _ => t

/-- `PTable::GetFileName`. -/
def Data.getFileName (d : Data) (id : Int) : Option String := (d.pcb id).map fun o => (d.object o).name

def noteAct (t : Tid) (pc : Pc) (c : Choice) (d : Data) : List Note :=
  match pc with
  | .exec (.check name) => [.called t name]
  | .exec (.ret id _) => [.returned t id]
  | .startProcess2 id => [.loads t id (d.getFileName id), .found t c.opened c.header]
  | .construct _ (.check h) => [.checked t h d.gPhysPageBitMap.numClear]
  | _ => []

def notes : Notes Pc Data Choice Note where
  act := noteAct
  fork t _ u := [.forked t u]

/-- The system with its notes. -/
def history (initial : ℕ → Int) : Program SemId Pc (Data × List Note) Ev Choice :=
  (process initial).noting notes

variable {initial : ℕ → Int} {a b : State SemId Pc (Data × List Note)}
  {tr es : List (Event SemId Ev)} {ns : List Note} {t v : Tid} {d d' : Data} {pc k : Pc}

theorem thread_noteAct {c : Choice} {n : Note} (h : n ∈ noteAct t pc c d) : n.thread = t := by
  unfold noteAct at h
  split at h <;> simp at h
  · rw [h]; rfl
  · rw [h]; rfl
  · rcases h with h | h <;> (rw [h]; rfl)
  · rw [h]; rfl

/-- A step of thread `v` from one control point to another, with its notes. -/
inductive NotedMove (d d' : Data) (v : Tid) : List Note → Pc → Pc → Prop
  | P {s : SemId} {pc k : Pc} (hc : CallsP pc s k) (hd : d' = d) : NotedMove d d' v [] pc k
  | V {s : SemId} {pc k : Pc} (hc : CallsV pc s k) (hd : d' = d) : NotedMove d d' v [] pc k
  | tick (hd : d' = d) : NotedMove d d' v [] .tick .user
  | fork {i : Int} {o : ObjectId} {u : Tid} {name : String}
      (hpid : d'.processID u = i) (hth : (d'.object o).thread = some u)
      (hspace : d'.space v = d.space v) (haddr : d'.addrSpace = d.addrSpace) :
      NotedMove d d' v [.forked v u] (.exec (.fork i o name)) (.exec (.multexV i o u))
  | act {f : Choice → Data → Option (Pc × Data × List Ev)} {c : Choice} {es : List Ev} {pc k : Pc}
      (hc : code v pc = .act f) (hf : f c d = some (k, d', es)) :
      NotedMove d d' v (noteAct v pc c d) pc k

theorem NotedMove.thread (h : NotedMove d d' v ns pc k) : ∀ n ∈ ns, n.thread = v := by
  cases h with
  | P | V | tick => simp
  | fork => simp [Note.thread]
  | act => exact fun n hn => thread_noteAct hn

/-- What a step means for thread `v`: it is at rest, it is new, or the step is its own. -/
inductive NotedMoved (a : State SemId Pc (Data × List Note)) (ns : List Note)
    (b : State SemId Pc (Data × List Note)) (v : Tid) : Prop
  | rest (hv : v < b.nextTid → v < a.nextTid) (hpc : b.pc v = a.pc v)
      (hns : ∀ n ∈ ns, n.thread ≠ v)
  | new {t : Tid} {i : Int} {o : ObjectId} {name : String} (hv : v = a.nextTid) (ht : t < a.nextTid)
      (hpc : b.pc v = .startProcess2 i) (hns : ns = [.forked t v]) (hpid : b.data.1.processID v = i)
      (hfork : a.pc t = .exec (.fork i o name)) (hspace : b.data.1.space v = none)
  | own (hv : v < a.nextTid) (hm : NotedMove a.data.1 b.data.1 v ns (a.pc v) (b.pc v))

/-- What a step adds to the notes, and what it means for each thread. -/
theorem moved_of_noted (hs : Noted (process initial) notes a es b) :
    ∃ ns, b.data.2 = a.data.2 ++ ns ∧ ∀ v, NotedMoved a ns b v := by
  cases hs with
  | @P t s k ht hc hv =>
    refine ⟨[], by simp, fun v => ?_⟩
    by_cases hvt : v = t
    · subst hvt
      exact .own ht (by simpa using .P (callsP_of_code hc) rfl)
    · exact .rest id (by simp [hvt]) (by simp)
  | @V t s k ht hc =>
    refine ⟨[], by simp, fun v => ?_⟩
    by_cases hvt : v = t
    · subst hvt
      exact .own ht (by simpa using .V (callsV_of_code hc) rfl)
    · exact .rest id (by simp [hvt]) (by simp)
  | handler hd => exact ⟨[], by simp, fun v => .rest id rfl (by simp)⟩
  | @yield t k ht hc =>
    obtain ⟨rfl, hpc⟩ := tick_of_code hc
    refine ⟨[], by simp, fun v => ?_⟩
    by_cases hvt : v = t
    · subst hvt
      exact .own ht (by simpa [hpc] using .tick rfl)
    · exact .rest id (by simp [hvt]) (by simp)
  | @fork t child k setup ht hc =>
    obtain ⟨i, o, name, hpc, rfl, rfl, rfl⟩ := fork_of_code hc
    refine ⟨[.forked t a.nextTid], rfl, fun v => ?_⟩
    by_cases hvt : v = t
    · subst hvt
      refine .own ht ?_
      simpa [hpc] using .fork (by simp) (by simp [Data.setObject]) (by simp [ht.ne]) rfl
    · by_cases hvn : v = a.nextTid
      · subst hvn
        exact .new rfl ht (by simp [hvt]) rfl (by simp) hpc (by simp)
      · exact .rest (fun h => lt_of_le_of_ne (Nat.lt_succ_iff.mp h) hvn) (by simp [hvt, hvn])
          (by simpa [Note.thread] using Ne.symm hvt)
  | @act t f c k d es ht hc hf =>
    refine ⟨noteAct t (a.pc t) c a.data.1, rfl, fun v => ?_⟩
    by_cases hvt : v = t
    · subst hvt
      exact .own ht (by simpa using .act hc hf)
    · exact .rest id (by simp [hvt]) fun n hn => by rw [thread_noteAct hn]; exact Ne.symm hvt
  | hook hd => exact ⟨[], by simp, fun v => .rest id rfl (by simp)⟩

/-- A note is by a thread that makes a step of its own. -/
theorem own_of_mem {n : Note} (hm : ∀ v, NotedMoved a ns b v) (hn : n ∈ ns) :
    n.thread < a.nextTid ∧
      NotedMove a.data.1 b.data.1 n.thread ns (a.pc n.thread) (b.pc n.thread) := by
  cases hm n.thread with
  | rest _ _ hns => exact absurd rfl (hns n hn)
  | new hv ht _ hns =>
    rw [hns, List.mem_singleton] at hn
    rw [hn] at hv
    exact absurd hv ht.ne
  | own hv hm => exact ⟨hv, hm⟩

/-- The local action a move with notes consists of. -/
theorem NotedMove.forget (h : NotedMove d d' v ns pc k) : ∃ es, Move d v es pc k := by
  cases h with
  | P hc => exact ⟨_, .P hc⟩
  | V hc => exact ⟨_, .V hc⟩
  | tick => exact ⟨_, .tick⟩
  | fork => exact ⟨_, .fork⟩
  | act hc hf => exact ⟨_, .act (localStep_of_code hc hf)⟩

/-- The argument of the call of `ExecUpdate` that `t` is in, or was in last. -/
def lastCalled (t : Tid) (ns : List Note) : Option String :=
  ns.reverse.findSome? fun
    | .called t' name => if t' = t then some name else none
    | _ => none

theorem lastCalled_append (t : Tid) (ns ns' : List Note) :
    lastCalled t (ns ++ ns') = (lastCalled t ns').or (lastCalled t ns) := by
  simp [lastCalled, List.findSome?_append]

/-- What others note does not change it. -/
theorem lastCalled_others (h : ∀ n ∈ ns, n.thread ≠ t) (l : List Note) :
    lastCalled t (l ++ ns) = lastCalled t l := by
  have hnone : lastCalled t ns = none := by
    refine List.findSome?_eq_none_iff.mpr fun n hn => ?_
    have := h n (List.mem_reverse.mp hn)
    cases n <;> simp_all [Note.thread]
  rw [lastCalled_append, hnone, Option.none_or]

end Nachos
