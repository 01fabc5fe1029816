import Nachos.Filesys.Consistency
import Nachos.Userprog.FileNames

/-!
# Opening and creating files

`CreateFile` and `Open` on the file system of either build: the files of the host
(`FILESYS_STUB`, `filesys.h`), or those on disk (`filesys.cc`).
-/
namespace Nachos

open Bytes (Byte)
open Filesys (Uninitialized storedDirectory storedMap headerAt)

/-- The files of the host that can be opened, and the names under which `OpenForWrite` can
create one. -/
structure HostFiles where
  names : List Byte → Option ℕ
  files : ℕ → HostFile
  next : ℕ
  creatable : List Byte → Bool

def HostFile.empty : HostFile := ⟨[], HostFile.small_nil⟩

/-- `OpenForWrite`, unless its `ASSERT` fails: the file is truncated or new. -/
def HostFiles.openForWrite (h : HostFiles) (name : List Byte) : Option HostFiles :=
  if h.creatable name then
    match h.names name with
    | some f => some { h with files := Function.update h.files f .empty }
    | none =>
      some { h with
        names := Function.update h.names name (some h.next)
        files := Function.update h.files h.next .empty
        next := h.next + 1 }
  else none

/-- The files of either build. -/
inductive Store
  | host (h : HostFiles)
  | disk (fs : Filesys.FileSystem) (d : Filesys.Disk)

namespace Store

/-- `FileSystem::Create(name, 0)`. -/
def create (u : Uninitialized) (name : List Byte) : Store → Option (Bool × Store)
  | host h => (h.openForWrite name).map fun h' => (true, host h')
  | disk fs d => (fs.create u name 0 d).map fun r => (r.1, disk fs r.2)

/-- The new `OpenFile` for a name, if there is such a file. -/
def openFile (name : List Byte) : Store → Option (Option Handle × Store)
  | host h => some ((h.names name).map fun f => .host f 0 0, host h)
  | disk fs d => (fs.open' name d).map fun r => (r.1.map fun hdr => .disk hdr 0, disk fs r.2)

/-- On disk, the file system is one that formatting, `Create` and `Remove` have made. -/
def Sound : Store → Prop
  | host _ => True
  | disk fs d => Filesys.Sound fs d

/-- What `Create` needs. -/
def Creatable (name : List Byte) : Store → Prop
  | host h => h.creatable name = true
  | disk _ d => Filesys.Creatable d name

/-- The file with a name: its number at the host, or the sector of its header. -/
def find (name : List Byte) : Store → Option ℕ
  | host h => h.names name
  | disk _ d =>
    let sector := (storedDirectory d).find name
    if 0 ≤ sector.toInt then some sector.toNat else none

/-- A file that has just been opened. -/
def handle (f : ℕ) : Store → Handle
  | host _ => .host f 0 0
  | disk _ d => .disk (headerAt d f) 0

variable {st : Store} {name : List Byte}

theorem create_spec (h : st.Sound) (u : Uninitialized) (name : List Byte) :
    (st.Creatable name → ∃ st', st.create u name = some (true, st')) ∧
    (¬st.Creatable name → st.create u name = none ∨ st.create u name = some (false, st)) := by
  cases st with
  | host files =>
    simp only [Creatable, create, HostFiles.openForWrite]
    constructor
    · intro hc
      rw [if_pos hc]
      cases files.names name <;> exact ⟨_, rfl⟩
    · intro hc
      rw [if_neg hc]
      exact .inl rfl
  | disk fs d =>
    obtain ⟨ok, d', hrun, -, hfalse, hiff⟩ := Filesys.create_spec (u := u) h name 0 (by decide)
    simp only [create, hrun, Option.map_some]
    constructor
    · intro hc
      rw [(hiff rfl).mpr hc]
      exact ⟨_, rfl⟩
    · intro hc
      have hok : ok = false := Bool.eq_false_iff.mpr (mt (hiff rfl).mp hc)
      rw [hok, hfalse hok]
      exact .inr rfl

/-- `Open` changes no file. -/
theorem openFile_spec (h : st.Sound) (name : List Byte) :
    st.openFile name = some ((st.find name).map fun f => st.handle f, st) := by
  cases st with
  | host files => rfl
  | disk fs d =>
    simp only [openFile, find, handle, Filesys.open_spec h, Option.map_some]
    split <;> rfl

/-- The directory on disk compares nine characters. -/
theorem find_take_disk (fs : Filesys.FileSystem) (d : Filesys.Disk) (name : List Byte) :
    (disk fs d).find (name.take 32) = (disk fs d).find name := by
  have hcmp : ∀ e : Filesys.DirectoryEntry,
      Filesys.strncmpEq Filesys.FileNameMaxLen e.name (name.take 32) =
        Filesys.strncmpEq Filesys.FileNameMaxLen e.name name := by
    intro e
    rw [Filesys.strncmpEq, List.take_take]
    rfl
  have hfind : (storedDirectory d).find (name.take 32) = (storedDirectory d).find name := by
    simp only [Filesys.Directory.find, Filesys.Directory.findIndex, hcmp]
  simp only [find, hfind]

/-- Under the whole name and under the 32 characters that `Open` takes, there is one file. -/
theorem find_unique {f f' : ℕ} (h : st.find (name.take 32) = some f)
    (h' : st.find name = some f') (hh : st.handle f = st.handle f') : f = f' := by
  cases st with
  | host files =>
    simp only [handle, Handle.host.injEq] at hh
    exact hh.1
  | disk fs d =>
    rw [find_take_disk, h', Option.some.injEq] at h
    exact h.symm

end Store

/-- What the handlers of `CreateFile` and `Open` work on. -/
structure FileKernel where
  memory : UserMemory
  openf : ℕ → Option Descriptor
  store : Store

namespace FileKernel

instance : HasMemory FileKernel where
  memory s := s.memory
  setMemory s u := { s with memory := u }
  memory_setMemory _ _ := rfl
  setMemory_setMemory _ _ _ := rfl
  setMemory_memory _ := rfl

def readMem (addr : BitVec 32) : Command FileKernel (BitVec 32) := fun s =>
  match s.memory.readByte addr with
  | .ok (value, memory) => some (value, { s with memory })
  | .error _ => none

def create (u : Uninitialized) (name : List Byte) : Command FileKernel Bool := fun s =>
  (s.store.create u name).map fun r => (r.1, { s with store := r.2 })

/-- The first free slot behind those of the console. -/
def freeSlot? (s : FileKernel) : Option ℕ :=
  (List.range' 2 13).find? fun i => (s.openf i).isNone

/-- `FileSystem::FindFreeSlot`. -/
def findFreeSlot : Command FileKernel (BitVec 32) := fun s =>
  match s.freeSlot? with
  | some i => some (BitVec.ofNat 32 i, s)
  | none => some (-1, s)

/-- `FileSystem::Open(name, type)`. On disk it looks for a free slot itself, and puts the new
file there. -/
def openTyped (name : List Byte) (type : BitVec 32) : Command FileKernel (Option Descriptor) :=
  fun s =>
    match s.store.openFile name with
    | none => none
    | some (file, store) =>
      let opened := file.map fun handle => (⟨type, handle⟩ : Descriptor)
      match s.store, s.freeSlot? with
      | .host _, _ => some (opened, { s with store := store })
      | .disk _ _, none => none
      | .disk _ _, some freeSlot =>
        let openf := if opened.isSome then Function.update s.openf freeSlot opened else s.openf
        some (openf freeSlot, { s with store := store, openf := openf })

/-- `openf[slot] = fileSystem->Open(name, type)`. -/
def openInto (slot : BitVec 32) (name : List Byte) (type : BitVec 32) : Command FileKernel Bool := do
  let opened ← openTyped name type
  fun s => some (opened.isSome, { s with openf := Function.update s.openf slot.toNat opened })

def services (u : Uninitialized) : Services FileKernel :=
  { Services.silent with
    readMem := readMem
    create := create u
    findFreeSlot := findFreeSlot
    openInto := openInto }

theorem readsMemory (u : Uninitialized) : (services u).ReadsMemory := fun _ _ => rfl

variable {s : FileKernel} {i : ℕ}

/-- A slot that `Open` may take. -/
def FreeSlot (s : FileKernel) (i : ℕ) : Prop := 2 ≤ i ∧ i ≤ 14 ∧ s.openf i = none

theorem freeSlot_of_some (h : s.freeSlot? = some i) : s.FreeSlot i := by
  have hmem := List.mem_of_find?_eq_some h
  have hfree := List.find?_some h
  rw [List.mem_range'_1] at hmem
  exact ⟨hmem.1, by omega, by simpa using hfree⟩

/-- A slot is not mistaken for an error. -/
theorem FreeSlot.ne (h : s.FreeSlot i) : BitVec.ofNat 32 i ≠ -1 := by
  obtain ⟨-, hle, -⟩ := h
  intro heq
  have := congrArg BitVec.toNat heq
  rw [Word.toNat_ofNat (by omega), show (-1 : BitVec 32).toNat = 2 ^ 32 - 1 from rfl] at this
  omega

theorem not_freeSlot_of_none (h : s.freeSlot? = none) : ¬s.FreeSlot i := by
  rintro ⟨h2, h14, hfree⟩
  have := List.find?_eq_none.mp h i (List.mem_range'_1.mpr (by omega))
  simp [hfree] at this

/-- The new descriptor for a name, if there is such a file. -/
def opened (s : FileKernel) (name : List Byte) (type : BitVec 32) : Option Descriptor :=
  (s.store.find name).map fun f => ⟨type, s.store.handle f⟩

theorem openTyped_spec (h : s.store.Sound) (hi : s.freeSlot? = some i) (name : List Byte)
    (type : BitVec 32) : ∃ openf, openTyped name type s =
      some (s.opened name type, { s with openf := openf }) ∧ ∀ j, j ≠ i → openf j = s.openf j := by
  have hfree := (freeSlot_of_some hi).2.2
  have hopen := Store.openFile_spec h name
  cases hst : s.store with
  | host files =>
    rw [hst] at hopen
    refine ⟨s.openf, ?_, fun _ _ => rfl⟩
    simp [openTyped, opened, hst, hopen, Function.comp_def]
  | disk fs d =>
    rw [hst] at hopen
    cases hf : (Store.disk fs d).find name with
    | none =>
      refine ⟨s.openf, ?_, fun _ _ => rfl⟩
      simp [openTyped, opened, hst, hopen, hf, hi, hfree]
    | some f =>
      refine ⟨Function.update s.openf i (s.opened name type), ?_, fun j hj => ?_⟩
      · simp [openTyped, opened, hst, hopen, hf, hi]
      · exact Function.update_of_ne hj _ _

/-- The slot that was found gets the file, if there is one. -/
theorem openInto_spec (h : s.store.Sound) (hi : s.freeSlot? = some i) (name : List Byte)
    (type : BitVec 32) : openInto (BitVec.ofNat 32 i) name type s =
      some ((s.opened name type).isSome,
        { s with openf := Function.update s.openf i (s.opened name type) }) := by
  have hle := (freeSlot_of_some hi).2.1
  have hnat : (BitVec.ofNat 32 i).toNat = i := Word.toNat_ofNat (by omega)
  obtain ⟨openf, hrun, hrest⟩ := openTyped_spec h hi name type
  have hopenf : Function.update openf i (s.opened name type) =
      Function.update s.openf i (s.opened name type) := by
    ext1 j
    by_cases hj : j = i
    · simp [hj]
    · simp [hj, hrest j hj]
  rw [openInto, Command.bind_of_some hrun, hnat, hopenf]

variable (u : Uninitialized) (fuel : ℕ) (r : Registers)

/-- The result of `CreateFile` on a string: `0` if `Create` was called with a name and succeeded,
and otherwise `-1`, with all files as they were. -/
def CreateFileLaw (s : FileKernel) (str : List Byte) : Prop :=
  ∃ r' s', (services u).exceptionHandler fuel .SyscallException (r, s) = some ((), r', s') ∧
    (r' 2 = 0 ↔ str ≠ [] ∧ ∃ st, s.store.create u (str.take 33) = some (true, st)) ∧
    (¬(str ≠ [] ∧ ∃ st, s.store.create u (str.take 33) = some (true, st)) →
      r' 2 = -1 ∧ s'.store = s.store)

variable {u fuel r} {str : List Byte}

/-- `Create` fails or `CreateFile` returns `0`. -/
theorem createFile_run (fuel : ℕ) (hstr : s.memory.HasString (r 4) str) (hcode : r 2 = 4) :
    (∀ {ok st}, s.store.create u (str.take 33) = some (ok, st) → ∃ r' s',
      (services u).exceptionHandler fuel .SyscallException (r, s) = some ((), r', s') ∧ r' 2 = 0) ∧
    (s.store.create u (str.take 33) = none →
      (services u).exceptionHandler fuel .SyscallException (r, s) = none) := by
  obtain ⟨m, -, hrun⟩ := Services.exceptionCreateFile_string (readsMemory u) (r := r) hstr
  have hhandler : (services u).handlerOf fuel (r 2).toNat = some (services u).exceptionCreateFile := by
    rw [hcode]
    rfl
  constructor
  · intro ok st hcreate
    have hservice : (services u).create (str.take 33) { s with memory := m } =
        some (ok, { s with memory := m, store := st }) := by
      simp [services, create, hcreate]
    obtain ⟨r', hnamed, hr'⟩ := Services.createNamed_of_some (r := r) hservice
    refine ⟨_, _, Services.exceptionHandler_of_some hhandler (hrun.trans hnamed), ?_⟩
    rw [Registers.increaseProgramCounter_result, hr']
  · intro hcreate
    have hservice : (services u).create (str.take 33) { s with memory := m } = none := by
      simp [services, create, hcreate]
    exact Services.exceptionHandler_of_none hhandler
      (hrun.trans (Services.createNamed_of_none hservice))

/-- `CreateFile` keeps its law exactly if there is a name, and the file can be created. -/
theorem createFileLaw_iff (hsound : s.store.Sound) (hstr : s.memory.HasString (r 4) str)
    (hcode : r 2 = 4) :
    CreateFileLaw u fuel r s str ↔ str ≠ [] ∧ s.store.Creatable (str.take 33) := by
  obtain ⟨hok, hnone⟩ := createFile_run (u := u) fuel hstr hcode
  obtain ⟨hyes, hno⟩ := Store.create_spec hsound u (str.take 33)
  constructor
  · rintro ⟨r', s', hrun, hzero, hfail⟩
    -- a call that returns at all returns `0`, so the law can only hold where that is right
    by_contra hn
    have hcreate : ¬(str ≠ [] ∧ ∃ st, s.store.create u (str.take 33) = some (true, st)) := by
      rintro ⟨hne, st, hst⟩
      have hc : ¬s.store.Creatable (str.take 33) := fun hc => hn ⟨hne, hc⟩
      rcases hno hc with h | h <;> simp [hst] at h
    have hr' := (hfail hcreate).1
    cases hst : s.store.create u (str.take 33) with
    | none => simp [hnone hst] at hrun
    | some p =>
      obtain ⟨r'', s'', hrun', hr''⟩ := hok hst
      rw [hrun'] at hrun
      cases hrun
      rw [hr''] at hr'
      revert hr'
      decide
  · rintro ⟨hne, hc⟩
    obtain ⟨st, hst⟩ := hyes hc
    obtain ⟨r', s', hrun, hr'⟩ := hok hst
    exact ⟨r', s', hrun, iff_of_true hr' ⟨hne, st, hst⟩, fun hn => absurd ⟨hne, st, hst⟩ hn⟩

/-- The stub file system after boot, with a program that has `str` at address `0`. -/
def booted (str : List Byte) : FileKernel where
  memory := .ofString str
  openf i := if i = 0 then some ⟨2, .host 0 0 0⟩ else if i = 1 then some ⟨3, .host 1 0 0⟩ else none
  store := .host
    { names := fun name =>
        if name = Filesys.FileSystem.chars "stdin" then some 0
        else if name = Filesys.FileSystem.chars "stdout" then some 1
        else none
      files := fun _ => .empty
      next := 2
      creatable := fun name => name ≠ [] }

theorem createFileLaw_new : (booted [97]).memory.HasString 0 [97] ∧
    CreateFileLaw noMemory 0 (callRegisters 4 0 0 0) (booted [97]) [97] := by
  have hstr : (booted [97]).memory.HasString (callRegisters 4 0 0 0 4) [97] :=
    UserMemory.hasString_ofString _ (by decide) (by decide)
  exact ⟨hstr, (createFileLaw_iff (s := booted [97]) trivial hstr rfl).mpr ⟨by decide, rfl⟩⟩

/-- On a new disk, `CreateFile` of the empty name returns `0`. -/
theorem createFileLaw_fails : ∃ fs d,
    Filesys.FileSystem.construct noMemory noMemory noMemory
      (fun _ => Filesys.sectorOf []) = some (fs, d) ∧
    (UserMemory.ofString []).HasString 0 [] ∧
    ¬CreateFileLaw noMemory 0 (callRegisters 4 0 0 0)
      ⟨.ofString [], fun _ => none, .disk fs d⟩ [] := by
  obtain ⟨fs, d, hconstruct, hsound⟩ := Filesys.construct_spec noMemory noMemory
    noMemory fun _ => Filesys.sectorOf []
  have hstr : (UserMemory.ofString []).HasString (callRegisters 4 0 0 0 4) [] :=
    UserMemory.hasString_ofString _ (by decide) (by decide)
  refine ⟨fs, d, hconstruct, hstr, ?_⟩
  rintro ⟨r', s', hrun, -, hfail⟩
  obtain ⟨ok, d', hcreate, -⟩ := Filesys.create_spec (u := noMemory) hsound [] 0 (by decide)
  have hstore : (Store.disk fs d).create noMemory ([].take 33) = some (ok, .disk fs d') := by
    rw [Store.create, List.take_nil, hcreate]
    rfl
  obtain ⟨r'', s'', hrun', hr''⟩ := (createFile_run 0 (r := callRegisters 4 0 0 0)
    (s := ⟨.ofString [], fun _ => none, .disk fs d⟩) hstr rfl).1 hstore
  rw [hrun'] at hrun
  cases hrun
  have := (hfail fun h => h.1 rfl).1
  rw [hr''] at this
  revert this
  decide

variable (u fuel r) in
/-- The result of `Open` on a string: a free slot with a new descriptor of the file, if it exists
and there is such a slot, and otherwise `-1`, with the table as it was. -/
def OpenLaw (s : FileKernel) (str : List Byte) : Prop :=
  ∃ r' s', (services u).exceptionHandler fuel .SyscallException (r, s) = some ((), r', s') ∧
    (∀ f, s.store.find str = some f → (∃ i, s.FreeSlot i) →
      ∃ i, s.FreeSlot i ∧ r' 2 = BitVec.ofNat 32 i ∧
        s'.openf = Function.update s.openf i (some ⟨r 5, s.store.handle f⟩)) ∧
    (s.store.find str = none ∨ (∀ i, ¬s.FreeSlot i) → r' 2 = -1 ∧ s'.openf = s.openf)

/-- Without a free slot, `Open` returns `-1`. -/
theorem open_full (fuel : ℕ) (hstr : s.memory.HasString (r 4) str) (hcode : r 2 = 5)
    (hfull : s.freeSlot? = none) : ∃ r' s',
      (services u).exceptionHandler fuel .SyscallException (r, s) = some ((), r', s') ∧
      r' 2 = -1 ∧ s'.openf = s.openf := by
  obtain ⟨m, -, hrun⟩ := Services.exceptionOpen_string (readsMemory u) (r := r) hstr
  have hhandler : (services u).handlerOf fuel (r 2).toNat = some (services u).exceptionOpen := by
    rw [hcode]
    rfl
  have hslot : (services u).findFreeSlot { s with memory := m } = some (-1, { s with memory := m }) := by
    have : FileKernel.freeSlot? { s with memory := m } = none := hfull
    simp [services, findFreeSlot, this]
  have hnamed := Services.openNamed_of_full (r 5) (str.take 32) r hslot
  refine ⟨_, _, Services.exceptionHandler_of_some hhandler (hrun.trans hnamed), ?_, rfl⟩
  rw [Registers.increaseProgramCounter_result]
  exact Function.update_self _ _ _

/-- With one, the result is the slot, or still the number of the call. -/
theorem open_free (fuel : ℕ) (hsound : s.store.Sound)
    (hstr : s.memory.HasString (r 4) str) (hcode : r 2 = 5) (htype : r 5 = 0 ∨ r 5 = 1)
    {i : ℕ} (hi : s.freeSlot? = some i) : ∃ r' s',
      (services u).exceptionHandler fuel .SyscallException (r, s) = some ((), r', s') ∧
      r' 2 = (if (s.store.find (str.take 32)).isSome then BitVec.ofNat 32 i else 5) ∧
      s'.openf = Function.update s.openf i (s.opened (str.take 32) (r 5)) := by
  obtain ⟨m, -, hrun⟩ := Services.exceptionOpen_string (readsMemory u) (r := r) hstr
  have hhandler : (services u).handlerOf fuel (r 2).toNat = some (services u).exceptionOpen := by
    rw [hcode]
    rfl
  have hi' : FileKernel.freeSlot? { s with memory := m } = some i := hi
  have hslot : (services u).findFreeSlot { s with memory := m } =
      some (BitVec.ofNat 32 i, { s with memory := m }) := by
    simp [services, findFreeSlot, hi']
  have hopen := openInto_spec (s := { s with memory := m }) hsound hi' (str.take 32) (r 5)
  have hnamed := Services.openNamed_of_slot (r := r) htype hslot (freeSlot_of_some hi).ne hopen
  have hisSome : (FileKernel.opened { s with memory := m } (str.take 32) (r 5)).isSome =
      (s.store.find (str.take 32)).isSome := Option.isSome_map
  refine ⟨_, _, Services.exceptionHandler_of_some hhandler (hrun.trans hnamed), ?_, rfl⟩
  rw [Registers.increaseProgramCounter_result, hisSome]
  split
  · exact Function.update_self _ _ _
  · exact hcode

/-- `Open` keeps its law exactly if no slot is free, or the first 32 characters of the name are
those of the file it names. -/
theorem openLaw_iff (hsound : s.store.Sound) (hstr : s.memory.HasString (r 4) str)
    (hcode : r 2 = 5) (htype : r 5 = 0 ∨ r 5 = 1) :
    OpenLaw u fuel r s str ↔ (∀ i, ¬s.FreeSlot i) ∨
      ∃ f, s.store.find (str.take 32) = some f ∧ s.store.find str = some f := by
  cases hi : s.freeSlot? with
  | none =>
    have hfull : ∀ i, ¬s.FreeSlot i := fun i => not_freeSlot_of_none hi
    obtain ⟨r', s', hrun, hr', hs'⟩ := open_full (u := u) fuel hstr hcode hi
    refine iff_of_true ⟨r', s', hrun, ?_, fun _ => ⟨hr', hs'⟩⟩ (.inl hfull)
    rintro f - ⟨i, hfree⟩
    exact absurd hfree (hfull i)
  | some i =>
    have hfree := freeSlot_of_some hi
    have hle := hfree.2.1
    obtain ⟨r', s', hrun, hr', hs'⟩ := open_free (u := u) fuel hsound hstr hcode htype hi
    constructor
    · rintro ⟨r'', s'', hrun', hyes, hno⟩
      rw [hrun] at hrun'
      cases hrun'
      right
      cases hf : s.store.find (str.take 32) with
      | none =>
        simp only [hf, Option.isSome_none, Bool.false_eq_true, if_false, opened,
          Option.map_none] at hr' hs'
        cases hf' : s.store.find str with
        | none =>
          have := (hno (.inl hf')).1
          rw [hr'] at this
          revert this
          decide
        | some f =>
          -- nothing was opened, so no slot has a new file
          obtain ⟨j, hj, -, hopenf⟩ := hyes f hf' ⟨i, hfree⟩
          have := congrFun hopenf j
          rw [hs', Function.update_self] at this
          by_cases hji : j = i
          · simp [hji] at this
          · simp [hji, hj.2.2] at this
      | some f =>
        simp only [hf, Option.isSome_some, if_true, opened, Option.map_some] at hr' hs'
        cases hf' : s.store.find str with
        | none => exact absurd (hr'.symm.trans (hno (.inl hf')).1) hfree.ne
        | some f' =>
          obtain ⟨j, hj, hjr, hopenf⟩ := hyes f' hf' ⟨i, hfree⟩
          have hji : j = i := by
            have := congrArg BitVec.toNat (hjr.symm.trans hr')
            have hjle := hj.2.1
            rwa [Word.toNat_ofNat (by omega), Word.toNat_ofNat (by omega)] at this
          have := congrFun hopenf i
          rw [hs', hji, Function.update_self, Function.update_self] at this
          simp only [Option.some.injEq, Descriptor.mk.injEq, true_and] at this
          exact ⟨f, rfl, congrArg some (Store.find_unique hf hf' this).symm⟩
    · rintro (hfull | ⟨f, hf, hf'⟩)
      · exact absurd hfree (hfull i)
      · refine ⟨r', s', hrun, ?_, ?_⟩
        · intro f₁ hf₁ _
          rw [hf', Option.some.injEq] at hf₁
          subst hf₁
          refine ⟨i, hfree, by simpa [hf] using hr', ?_⟩
          rw [hs', opened, hf]
          rfl
        · rintro (hnone | hfull)
          · simp [hf'] at hnone
          · exact absurd hfree (hfull i)

theorem openLaw_stdin :
    (booted (Filesys.FileSystem.chars "stdin")).memory.HasString 0 (Filesys.FileSystem.chars "stdin") ∧
    OpenLaw noMemory 0 (callRegisters 5 0 1 0) (booted (Filesys.FileSystem.chars "stdin"))
      (Filesys.FileSystem.chars "stdin") := by
  have hstr : (booted (Filesys.FileSystem.chars "stdin")).memory.HasString
      (callRegisters 5 0 1 0 4) (Filesys.FileSystem.chars "stdin") :=
    UserMemory.hasString_ofString _ (by decide) (by decide)
  refine ⟨hstr, (openLaw_iff (s := booted _) trivial hstr rfl (.inr rfl)).mpr (.inr ⟨0, ?_, ?_⟩)⟩ <;> decide

/-- `Open` of a file that does not exist returns `5`, the number of the call. -/
theorem openLaw_fails : (booted [97]).memory.HasString 0 [97] ∧
    ¬OpenLaw noMemory 0 (callRegisters 5 0 0 0) (booted [97]) [97] := by
  have hstr : (booted [97]).memory.HasString (callRegisters 5 0 0 0 4) [97] :=
    UserMemory.hasString_ofString _ (by decide) (by decide)
  refine ⟨hstr, ?_⟩
  rintro ⟨r', s', hrun, -, hno⟩
  obtain ⟨r'', s'', hrun', hr'', -⟩ := open_free (u := noMemory) 0
    (s := booted [97]) trivial hstr rfl (.inl rfl) (i := 2) (by decide)
  rw [hrun'] at hrun
  cases hrun
  have := (hno (.inl (by decide))).1
  rw [hr''] at this
  revert this
  decide

end FileKernel

end Nachos
