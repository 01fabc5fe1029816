import Nachos.Lib.Command
import Nachos.Userprog.ProcessTable

/-!
# What `Exec` leaves behind

`PTable::ExecUpdate` and `PCB::Exec` as one sequence of actions of the calling thread, with the
`OpenFile` objects that `fileSystem->Open` makes (`filesys.h`, the stub build). A call that has
to sleep in `P` does not come back here: it goes on later, in another state.
-/
namespace Nachos

open Concurrent
open Command (Keeps bind_of_some)

/-- The process table, the semaphores and the scheduler, with the `OpenFile` objects that have
not been deleted. `files` tells which files the host opens. -/
structure ExecKernel where
  data : Data
  sem : SemId → Semaphore
  readyList : List Tid
  nextTid : Tid
  openFiles : List ℕ
  nextFile : ℕ
  files : String → Bool

namespace ExecKernel

/-- `Semaphore::P` when the value allows it. -/
def P (x : SemId) : Command ExecKernel Unit := fun s =>
  if (s.sem x).value = 0 then none
  else some ((), { s with
    sem := Function.update s.sem x ⟨decr (s.sem x).value, (s.sem x).queue⟩ })

/-- `Semaphore::V`. -/
def V (x : SemId) : Command ExecKernel Unit := fun s =>
  match (s.sem x).queue with
  | [] => some ((), { s with sem := Function.update s.sem x ⟨incr (s.sem x).value, []⟩ })
  | t :: q =>
    some ((), { s with
      sem := Function.update s.sem x ⟨incr (s.sem x).value, q⟩
      readyList := s.readyList ++ [t] })

/-- `fileSystem->Open(name)`. -/
def openFile (name : String) : Command ExecKernel (Option ℕ) := fun s =>
  if s.files name then
    some (some s.nextFile,
      { s with openFiles := s.openFiles ++ [s.nextFile], nextFile := s.nextFile + 1 })
  else some (none, s)

def reads {α : Type} (f : ExecKernel → α) : Command ExecKernel α := fun s => some (f s, s)

/-- `pcb[index] = new PCB(index)`, with its name and its parent. -/
def newPCB (t : Tid) (uninit : ℕ → BitVec 32) (index : Int) (name : String) :
    Command ExecKernel ObjectId := fun s =>
  let o := s.data.nextObject
  some (o, { s with
    data := { s.data with
      pcb := Function.update s.data.pcb index (some o)
      object := Function.update s.data.object o
        ⟨s.data.processID t, none, (uninit 0).toInt, (uninit 1).toInt, name⟩
      nextObject := o + 1 }
    sem := Function.update (Function.update (Function.update s.sem (.joinsem o) ⟨0, []⟩)
      (.exitsem o) ⟨0, []⟩) (.multex o) ⟨1, []⟩ })

/-- The kernel after `fork`. -/
def forked (t : Tid) (o : ObjectId) (name : String) (pid : Int) (s : ExecKernel) : ExecKernel :=
  { s with
    data := { s.data.setObject o fun b =>
        { b with thread := some s.nextTid, parentID := s.data.processID t } with
      processID := Function.update s.data.processID s.nextTid pid
      threadName := Function.update s.data.threadName s.nextTid (some name)
      space := Function.update s.data.space s.nextTid none }
    readyList := s.readyList ++ [s.nextTid]
    nextTid := s.nextTid + 1 }

/-- `new Thread(filename)` and `Fork`. -/
def fork (t : Tid) (o : ObjectId) (name : String) (pid : Int) : Command ExecKernel Unit := fun s =>
  some ((), forked t o name pid s)

/-- `PCB::Exec`. -/
def exec (t : Tid) (o : ObjectId) (filename : String) (pid : Int) : Command ExecKernel Int := do
  P (.multex o)
  fork t o filename pid
  V (.multex o)
  pure pid

/-- `bmsem->V()` and `return`. -/
def leave (id : Int) : Command ExecKernel Int := do
  V .bmsem
  pure id

/-- `ExecUpdate` once the file is open. `executable` is not looked at again. -/
def execOpened (t : Tid) (c : Choice) (name : String) : Command ExecKernel Int := do
  let self ← reads fun s => s.data.isNamed t name c.sameName
  if self then leave (-1)
  else do
    let index ← reads fun s => s.data.getFreeSlot
    if index < 0 then leave (-1)
    else do
      let o ← newPCB t c.uninit index name
      let id ← exec t o name index
      leave id

/-- `PTable::ExecUpdate` in thread `t`. -/
def execUpdate (t : Tid) (c : Choice) (name : Option String) : Command ExecKernel Int := do
  P .bmsem
  match name with
  | none => leave (-1)
  | some name => do
    let executable ← openFile name
    if executable = none then leave (-1) else execOpened t c name

/-- Nothing is different that a later call could see. -/
structure Same (s s' : ExecKernel) : Prop where
  data : s'.data = s.data
  sem : s'.sem = s.sem
  readyList : s'.readyList = s.readyList
  openFiles : s'.openFiles = s.openFiles

/-- A semaphore of the `PCB` object `o`. -/
def Of (o : ObjectId) (x : SemId) : Prop := x = .joinsem o ∨ x = .exitsem o ∨ x = .multex o

/-- There is one more process, `id`, with a thread that is ready, and nothing else. -/
structure Started (s s' : ExecKernel) (id : Int) : Prop where
  free : s.data.pcb id = none
  data : ∃ b name, s'.data = { s.data with
    pcb := Function.update s.data.pcb id (some s.data.nextObject)
    object := Function.update s.data.object s.data.nextObject b
    nextObject := s.data.nextObject + 1
    processID := Function.update s.data.processID s.nextTid id
    threadName := Function.update s.data.threadName s.nextTid (some name)
    space := Function.update s.data.space s.nextTid none }
  sem : ∀ x, ¬Of s.data.nextObject x → s'.sem x = s.sem x
  readyList : s'.readyList = s.readyList ++ [s.nextTid]
  openFiles : s'.openFiles = s.openFiles

/-- `ExecUpdate` returns, and has changed nothing, or nothing but that. -/
def ExecLaw (t : Tid) (c : Choice) (name : Option String) (s : ExecKernel) : Prop :=
  ∃ id s', execUpdate t c name s = some (id, s') ∧ (id = -1 → Same s s') ∧
    (id ≠ -1 → Started s s' id)

/-- The host opens the file of this name. -/
def Opens (s : ExecKernel) (name : Option String) : Prop := ∃ n, name = some n ∧ s.files n = true

variable {s s' : ExecKernel} {t : Tid} {c : Choice} {name : Option String} {x : SemId}

/-- The files that are open stay open. -/
def OpenFilesSame (s s' : ExecKernel) : Prop := s'.openFiles = s.openFiles

instance : Std.Refl OpenFilesSame := ⟨fun _ => rfl⟩

instance : IsTrans ExecKernel OpenFilesSame := ⟨fun _ _ _ h h' => h'.trans h⟩

instance (x : SemId) : Keeps OpenFilesSame (P x) := ⟨by
  intro s a s' h
  unfold P at h
  split at h
  · cases h
  · cases h
    rfl⟩

instance (x : SemId) : Keeps OpenFilesSame (V x) := ⟨by
  intro s a s' h
  unfold V at h
  split at h <;> cases h <;> rfl⟩

instance {α : Type} (f : ExecKernel → α) : Keeps OpenFilesSame (reads f) := ⟨by
  rintro s _ _ ⟨rfl, rfl⟩
  rfl⟩

instance (uninit : ℕ → BitVec 32) (index : Int) (name : String) :
    Keeps OpenFilesSame (newPCB t uninit index name) := ⟨by
  rintro s _ _ ⟨rfl, rfl⟩
  rfl⟩

instance (o : ObjectId) (name : String) (pid : Int) : Keeps OpenFilesSame (fork t o name pid) := ⟨by
  rintro s _ _ ⟨rfl, rfl⟩
  rfl⟩

instance (id : Int) : Keeps OpenFilesSame (leave id) := by
  unfold leave
  infer_instance

instance (o : ObjectId) (name : String) (pid : Int) : Keeps OpenFilesSame (exec t o name pid) := by
  unfold exec
  infer_instance

instance (name : String) : Keeps OpenFilesSame (execOpened t c name) := by
  unfold execOpened
  infer_instance

/-- Inside `ExecUpdate`, after `bmsem->P()`. -/
def entered (s : ExecKernel) : ExecKernel :=
  { s with sem := Function.update s.sem .bmsem ⟨decr (s.sem .bmsem).value, (s.sem .bmsem).queue⟩ }

/-- `bmsem` is free. -/
def Free (s : ExecKernel) : Prop := 0 < (s.sem .bmsem).value ∧ (s.sem .bmsem).value < 2 ^ 31

instance : Decidable s.Free := inferInstanceAs (Decidable (_ ∧ _))

theorem Free.P (h : s.Free) : P .bmsem s = some ((), s.entered) := by
  rw [ExecKernel.P, if_neg h.1.ne']
  rfl

theorem leave_of_nil (hq : (s.sem .bmsem).queue = []) (id : Int) :
    leave id s = some (id, { s with
      sem := Function.update s.sem .bmsem ⟨incr (s.sem .bmsem).value, []⟩ }) := by
  have hV : V .bmsem s = some ((), { s with
      sem := Function.update s.sem .bmsem ⟨incr (s.sem .bmsem).value, []⟩ }) := by
    rw [V, hq]
  rw [leave, bind_of_some hV]
  rfl

/-- Leaving undoes the entering, if no other thread waits. -/
theorem Free.incr_decr (h : s.Free) (hq : (s.sem .bmsem).queue = []) :
    (⟨incr (decr (s.sem .bmsem).value), []⟩ : Semaphore) = s.sem .bmsem := by
  obtain ⟨h0, h1⟩ := h
  rw [decr_eq (by omega) (by omega), incr_eq (by omega) (by omega), sub_add_cancel, ← hq]

theorem Free.leave (h : s.Free) (hq : (s.sem .bmsem).queue = []) (id : Int) :
    leave id s.entered = some (id, s) := by
  rw [leave_of_nil (by simpa [entered] using hq)]
  simp [entered, h.incr_decr hq]

/-- Otherwise the first that waits is made ready. -/
theorem leave_waiting {u : Tid} {q : List Tid} (hq : (s.sem .bmsem).queue = u :: q) (id : Int) :
    ∃ s', leave id s.entered = some (id, s') ∧ s'.readyList = s.readyList ++ [u] := by
  have hV : V .bmsem s.entered = some ((), { s.entered with
      sem := Function.update s.entered.sem .bmsem ⟨incr (decr (s.sem .bmsem).value), q⟩
      readyList := s.readyList ++ [u] }) := by
    simp [V, entered, hq]
  rw [ExecKernel.leave, bind_of_some hV]
  exact ⟨_, rfl, rfl⟩

/-- Without an open file, `ExecUpdate` leaves at once. -/
theorem execUpdate_of_not_opens (h : s.Free) (hn : ¬s.Opens name) :
    execUpdate t c name s = leave (-1) s.entered := by
  unfold execUpdate
  rw [bind_of_some h.P]
  cases name with
  | none => rfl
  | some n =>
    have hfile : openFile n s.entered = some (none, s.entered) := by
      refine if_neg fun hf => hn ⟨n, rfl, hf⟩
    show (openFile n >>= _) s.entered = _
    rw [bind_of_some hfile, if_pos rfl]

/-- Inside `ExecUpdate`, with the file open. -/
def opened (s : ExecKernel) : ExecKernel :=
  { s.entered with openFiles := s.openFiles ++ [s.nextFile], nextFile := s.nextFile + 1 }

theorem execUpdate_of_opens {n : String} (h : s.Free) (hn : s.files n = true) :
    execUpdate t c (some n) s = execOpened t c n s.opened := by
  have hfile : openFile n s.entered = some (some s.nextFile, s.opened) := if_pos hn
  unfold execUpdate
  rw [bind_of_some h.P]
  show (openFile n >>= _) s.entered = _
  rw [bind_of_some hfile, if_neg nofun]

/-- A file that has been opened is never closed. -/
theorem openFiles_execUpdate (h : s.Free) (ho : s.Opens name) {id : Int}
    (hrun : execUpdate t c name s = some (id, s')) :
    s'.openFiles = s.openFiles ++ [s.nextFile] := by
  obtain ⟨n, rfl, hn⟩ := ho
  rw [execUpdate_of_opens h hn] at hrun
  exact Keeps.keeps (R := OpenFilesSame) _ _ _ hrun

/-- `ExecUpdate` leaves the kernel as it should exactly if it opens no file, and no other thread
waits to get in. -/
theorem execLaw_iff (t : Tid) (c : Choice) (name : Option String) (s : ExecKernel) (h : s.Free) :
    ExecLaw t c name s ↔ ¬s.Opens name ∧ (s.sem .bmsem).queue = [] := by
  constructor
  · rintro ⟨id, s', hrun, hfail, hstart⟩
    have hfiles : s'.openFiles = s.openFiles := by
      by_cases hid : id = -1
      · exact (hfail hid).openFiles
      · exact (hstart hid).openFiles
    have hn : ¬s.Opens name := by
      intro ho
      rw [openFiles_execUpdate h ho hrun] at hfiles
      simp at hfiles
    refine ⟨hn, ?_⟩
    cases hq : (s.sem .bmsem).queue with
    | nil => rfl
    | cons u q =>
      obtain ⟨s₁, hleave, hready⟩ := leave_waiting hq (-1)
      rw [execUpdate_of_not_opens h hn, hleave] at hrun
      cases hrun
      have := (hfail rfl).readyList
      rw [hready] at this
      simp at this
  · rintro ⟨hn, hq⟩
    exact ⟨-1, s, (execUpdate_of_not_opens h hn).trans (h.leave hq (-1)),
      fun _ => ⟨rfl, rfl, rfl, rfl⟩, fun hne => absurd rfl hne⟩

/-- The kernel with one process, right after it has booted. `main` and `halt` are files. -/
def booted : ExecKernel where
  data := initialData
  sem
    | .bmsem | .addrLock | .multex _ => ⟨1, []⟩
    | _ => ⟨0, []⟩
  readyList := []
  nextTid := 1
  openFiles := []
  nextFile := 0
  files n := n = "main" ∨ n = "halt"

theorem execLaw_missing : booted.Free ∧ ExecLaw 0 {} (some "none") booted := by
  have hfree : booted.Free := by decide
  refine ⟨hfree, (execLaw_iff 0 {} _ booted hfree).mpr ⟨?_, rfl⟩⟩
  rintro ⟨n, hn, hopen⟩
  cases hn
  revert hopen
  decide

/-- `Exec` of the calling program is refused, and the file stays open. -/
theorem execLaw_fails :
    (∃ s', execUpdate 0 {} (some "main") booted = some (-1, s') ∧ s'.openFiles = [0]) ∧
      ¬ExecLaw 0 {} (some "main") booted := by
  have hrun : ∃ s', execUpdate 0 {} (some "main") booted = some (-1, s') := ⟨_, rfl⟩
  obtain ⟨s', hrun⟩ := hrun
  have hopen : s'.openFiles = [0] :=
    openFiles_execUpdate (by decide) ⟨"main", rfl, by decide⟩ hrun
  refine ⟨⟨s', hrun, hopen⟩, ?_⟩
  rintro ⟨id, s₁, hrun₁, hfail, -⟩
  rw [hrun] at hrun₁
  cases hrun₁
  have := (hfail rfl).openFiles
  rw [hopen] at this
  cases this

/-! The open file is all that is wrong: everything else is as it should be. -/

/-- The state without the files this call has opened. -/
def closing (s s' : ExecKernel) : ExecKernel := { s' with openFiles := s.openFiles }

theorem leave_opened (h : s.Free) (hq : (s.sem .bmsem).queue = []) (id : Int) :
    ∃ s', leave id s.opened = some (id, s') ∧ Same s (closing s s') := by
  rw [leave_of_nil (by simpa [opened, entered] using hq)]
  refine ⟨_, rfl, rfl, ?_, rfl, rfl⟩
  simp [closing, opened, entered, h.incr_decr hq]

/-- Of the semaphores, `PCB::Exec` uses only the one of the new object, which is free. -/
theorem exec_of_free {o : ObjectId} {n : String} {i : Int} (h : s.sem (.multex o) = ⟨1, []⟩) :
    exec t o n i s = some (i, forked t o n i s) := by
  have hdecr : decr 1 = 0 := by decide
  have hincr : incr 0 = 1 := by decide
  have hP : P (.multex o) s = some ((), { s with
      sem := Function.update s.sem (.multex o) ⟨0, []⟩ }) := by
    simp [P, h, hdecr]
  have hV : V (.multex o) (forked t o n i { s with
      sem := Function.update s.sem (.multex o) ⟨0, []⟩ }) = some ((), forked t o n i s) := by
    simp [V, forked, hincr, ← h]
  unfold exec
  rw [bind_of_some hP, bind_of_some (f := fun _ => V _ >>= _) rfl]
  exact bind_of_some hV

/-- `ExecUpdate` returns, and but for the open file it has done what it should. -/
theorem execUpdate_but_files (h : s.Free) (hq : (s.sem .bmsem).queue = []) :
    ∃ id s', execUpdate t c name s = some (id, s') ∧ (id = -1 → Same s (closing s s')) ∧
      (id ≠ -1 → Started s (closing s s') id) := by
  by_cases ho : s.Opens name
  · obtain ⟨n, rfl, hn⟩ := ho
    obtain ⟨s', hleave, hsame⟩ := leave_opened h hq (-1)
    rw [execUpdate_of_opens h hn]
    unfold execOpened
    rw [bind_of_some (a := s.data.isNamed t n c.sameName) rfl]
    split
    · exact ⟨-1, s', hleave, fun _ => hsame, fun hne => absurd rfl hne⟩
    rw [bind_of_some (a := s.data.getFreeSlot) rfl]
    split
    · exact ⟨-1, s', hleave, fun _ => hsame, fun hne => absurd rfl hne⟩
    next hslot =>
      rw [bind_of_some (a := s.data.nextObject) rfl, bind_of_some (exec_of_free (by simp [opened, entered])),
        leave_of_nil (by simpa [opened, entered, forked] using hq)]
      refine ⟨_, _, rfl, fun hid => absurd hid (by omega), fun _ => ?_⟩
      refine ⟨(getFreeSlot_spec (by omega)).2, ?_, ?_, rfl, rfl⟩
      · simp only [closing, forked, opened, entered, Data.setObject, Function.update_idem]
        exact ⟨_, n, rfl⟩
      · intro x hx
        obtain ⟨hjoin, hexit, hmultex⟩ : x ≠ .joinsem s.data.nextObject ∧
            x ≠ .exitsem s.data.nextObject ∧ x ≠ .multex s.data.nextObject := by
          simpa only [Of, not_or] using hx
        by_cases hb : x = .bmsem
        · subst hb
          simp [closing, forked, opened, entered, h.incr_decr hq]
        · simp [closing, forked, opened, entered, hb, hjoin, hexit, hmultex]
  · rw [execUpdate_of_not_opens h ho, h.leave hq]
    exact ⟨-1, s, rfl, fun _ => ⟨rfl, rfl, rfl, rfl⟩, fun hne => absurd rfl hne⟩

end ExecKernel

end Nachos
