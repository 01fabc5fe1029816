import Nachos.Lib.System

/-!
# The file system calls

The table of open files (`filesys.h`, the stub build) and the system calls `Open`, `Close`,
`Read` and `Write` on it (`exception.cc`). A call gives up the processor only inside a
console operation, after which it does not look at the table again, so each is one step.

What the host answers is left open: which files exist, and what reading and seeking
return. Only a descriptor that is not in use is given out, and one that is not open can
neither be moved nor closed: `Lseek` and `Close` (`sysdep.cc`) abort there. `OpenFile`
objects are numbered in the order of allocation, and a deleted one keeps its last
contents.
-/
namespace Nachos

/-- An `OpenFile` object. -/
abbrev FileId := ℕ

/-- `class OpenFile`: the descriptor at the host and the type it was opened as. -/
structure OpenFile where
  file : Int
  type : Int
  deriving DecidableEq

/-- `class FileSystem`, and which descriptors are open at the host. -/
structure FileSystem where
  openf : Int → Option FileId
  object : FileId → OpenFile
  nextFile : FileId
  hostOpen : Int → Bool

def SC_Open : Int := 5

def SC_Write : Int := 7

/-- What the host, the console and user memory answer to one call. -/
structure Host where
  openForReadWrite : String → Int := fun _ => -1
  /-- The position of the file before and after. -/
  tell : Int := 0
  tellAfter : Int := 0
  readPartial : Int := 0
  consoleRead : Int := 0
  /-- The characters before the end of the string or of its first line. -/
  line : ℕ := 0
  /-- Otherwise an exception in user memory or a failed `ASSERT` stops the machine. -/
  ok : Bool := true

inductive FileCall
  | Open (name : String) (type : Int)
  | Close (id : Int)
  | Read (charCount id : Int)
  | Write (charcount id : Int)
  deriving DecidableEq

/-- How a system call ends. -/
inductive Outcome
  /-- It returns with this value in register `2`. -/
  | returns (r : Int)
  | halt
  /-- `openf` is read outside the table, or a null pointer is dereferenced. -/
  | fault
  deriving DecidableEq

inductive FileEv
  | used (f : FileId)
  | deleted (f : FileId)
  | call (c : FileCall) (r : Outcome)
  deriving DecidableEq

namespace FileSystem

/-- `FileSystem::Open(name, type)`. -/
def open' (fs : FileSystem) (fileDescriptor type : Int) : Option FileId × FileSystem :=
  if fileDescriptor = -1 then (none, fs)
  else
    (some fs.nextFile,
      { fs with
        object := Function.update fs.object fs.nextFile ⟨fileDescriptor, type⟩
        nextFile := fs.nextFile + 1
        hostOpen := Function.update fs.hostOpen fileDescriptor true })

def setOpenf (fs : FileSystem) (i : Int) (f : Option FileId) : FileSystem :=
  { fs with openf := Function.update fs.openf i f }

/-- `FileSystem::FileSystem`, with the descriptors of `stdin` and `stdout`. -/
def new (stdin stdout : Int) : FileSystem :=
  let fs : FileSystem := ⟨fun _ => none, fun _ => ⟨0, 0⟩, 0, fun _ => false⟩
  let r := fs.open' stdin 2
  let fs := r.2.setOpenf 0 r.1
  let r := fs.open' stdout 3
  r.2.setOpenf 1 r.1

/-- `FileSystem::FindFreeSlot`. -/
def findFreeSlot (fs : FileSystem) : Int :=
  match (List.range' 2 13).find? fun i : ℕ => (fs.openf (i : Int)).isNone with
  | some i => (i : Int)
  | none => -1

/-- `Exception_Open`. When the file does not open, register `2` keeps the number of the
call. -/
def exceptionOpen (h : Host) (fs : FileSystem) (name : String) (type : Int) :
    FileSystem × List FileEv × Outcome :=
  if !h.ok then (fs, [], .halt)
  else
    let freeSlot := fs.findFreeSlot
    if freeSlot = -1 then (fs, [], .returns (-1))
    else if type = 0 ∨ type = 1 then
      let r := fs.open' (h.openForReadWrite name) type
      (r.2.setOpenf freeSlot r.1, [], .returns (if r.1.isSome then freeSlot else SC_Open))
    else if type = 2 then (fs, [], .returns 0)
    else (fs, [], .returns 1)

/-- `Exception_Close`. The destructor of `OpenFile` closes the descriptor, and the host
refuses that for one that is not open. -/
def exceptionClose (fs : FileSystem) (fileId : Int) : FileSystem × List FileEv × Outcome :=
  if 0 ≤ fileId ∧ fileId ≤ 14 then
    match fs.openf fileId with
    | some f =>
      let file := (fs.object f).file
      if fs.hostOpen file then
        ({ fs with hostOpen := Function.update fs.hostOpen file false }, [.deleted f], .returns 0)
      else (fs, [.deleted f], .halt)
    | none => (fs, [], .returns (-1))
  else (fs, [], .returns (-1))

/-- `Exception_Read`. Reading a file moves its descriptor first. -/
def exceptionRead (h : Host) (fs : FileSystem) (id : Int) : FileSystem × List FileEv × Outcome :=
  if id < 0 ∨ 14 < id then (fs, [], .returns (-1))
  else
    match fs.openf id with
    | none => (fs, [], .returns (-1))
    | some f =>
      let type := (fs.object f).type
      if type = 3 then (fs, [.used f], .returns (-1))
      else if !h.ok then (fs, [.used f], .halt)
      else if type = 2 then (fs, [.used f], .returns h.consoleRead)
      else if !fs.hostOpen (fs.object f).file then (fs, [.used f], .halt)
      else if 0 < h.readPartial then (fs, [.used f], .returns (h.tellAfter - h.tell))
      else (fs, [.used f], .returns (-2))

/-- `Exception_Write`. It writes `-1` to register `2` for a bad descriptor and goes on all
the same. -/
def exceptionWrite (h : Host) (fs : FileSystem) (charcount id : Int) :
    FileSystem × List FileEv × Outcome :=
  if id < 0 ∨ 14 < id then (fs, [], .fault)
  else
    match fs.openf id with
    | none => (fs, [], .fault)
    | some f =>
      let type := (fs.object f).type
      let r := if type = 1 ∨ type = 2 then -1 else SC_Write
      if !h.ok then (fs, [.used f], .halt)
      else if type = 0 then
        if fs.hostOpen (fs.object f).file then
          (fs, [.used f], .returns (if 0 < charcount then h.tellAfter - h.tell else r))
        else (fs, [.used f], .halt)
      else if type = 3 then (fs, [.used f], .returns (h.line - 1))
      else (fs, [.used f], .returns r)

def call (h : Host) (fs : FileSystem) : FileCall → FileSystem × List FileEv × Outcome
  | .Open name type => fs.exceptionOpen h name type
  | .Close id => fs.exceptionClose id
  | .Read _ id => fs.exceptionRead h id
  | .Write charcount id => fs.exceptionWrite h charcount id

/-- What the host gives out is not in use. -/
def fresh (h : Host) (fs : FileSystem) : FileCall → Bool
  | .Open name _ => !fs.hostOpen (h.openForReadWrite name)
  | _ => true

end FileSystem

/-- The kernel between two file system calls. -/
structure FileState where
  fileSystem : FileSystem
  running : Bool

namespace FileState

/-- One call, with the host's answers. -/
def next (s : FileState) (a : FileCall × Host) : Option (FileState × List FileEv) :=
  if s.running && s.fileSystem.fresh a.2 a.1 then
    let r := s.fileSystem.call a.2 a.1
    some (⟨r.1, match r.2.2 with | .returns _ => true | _ => false⟩,
      r.2.1 ++ [.call a.1 r.2.2])
  else none

def initial (stdin stdout : Int) : FileState := ⟨.new stdin stdout, true⟩

end FileState

/-- Any sequence of file system calls, from boot. -/
def fileCalls (stdin stdout : Int) : System FileState FileEv :=
  .ofNext (.initial stdin stdout) FileState.next

end Nachos
