import Nachos.Filesys.DirectoryMap
import Nachos.Filesys.OpenTable
import Nachos.Filesys.SectorRequest
import Nachos.Lib.Volume

/-!
# The file system in use

`class FileSystem` of the `FILESYS` build with the files that `Open(name, type)` has opened:
`Create`, `Remove`, the calls of an `OpenFile`, and starting again from what is on the disk.
-/
namespace Nachos.Filesys

open Bytes (Byte overlay)

namespace OpenFile

/-- `Read`: the result, the bytes, and the new `seekPosition`. -/
def read (hdr : FileHeader) (seekPosition numBytes : BitVec 32) :
    Command Disk ((BitVec 32 × List Byte) × BitVec 32) := do
  let r ← readAt hdr numBytes seekPosition
  pure (r, seekPosition + r.1)

/-- `Write`: the result, and the new `seekPosition`. -/
def write (hdr : FileHeader) (seekPosition : BitVec 32) (from' : List Byte)
    (numBytes : BitVec 32) (old : List Byte) : Command Disk (BitVec 32 × BitVec 32) := do
  let result ← writeAt hdr from' numBytes seekPosition old
  pure (result, seekPosition + result)

end OpenFile

/-- A call of an `OpenFile`. A write comes with what the new buffer held before. -/
inductive FileRequest
  | seek (position : BitVec 32)
  | read (numBytes : BitVec 32)
  | write (from' : List Byte) (numBytes : BitVec 32) (old : List Byte)
  | readAt (numBytes position : BitVec 32)
  | writeAt (from' : List Byte) (numBytes position : BitVec 32) (old : List Byte)
  | length
  | getCurrentPos

namespace FileRequest

/-- The call for a file with this header and `seekPosition`: what it answers, and the new
`seekPosition`. -/
def run (hdr : FileHeader) (seekPosition : BitVec 32) :
    FileRequest → Command Disk (Reply × BitVec 32)
  | seek position => pure (.moved 0 [], position)
  | read numBytes => do
    let r ← OpenFile.read hdr seekPosition numBytes
    pure (.moved r.1.1.toInt r.1.2, r.2)
  | write from' numBytes old => do
    let r ← OpenFile.write hdr seekPosition from' numBytes old
    pure (.moved r.1.toInt [], r.2)
  | readAt numBytes position => do
    let r ← OpenFile.readAt hdr numBytes position
    pure (.moved r.1.toInt r.2, seekPosition)
  | writeAt from' numBytes position old => do
    let result ← OpenFile.writeAt hdr from' numBytes position old
    pure (.moved result.toInt [], seekPosition)
  | length => pure (.moved hdr.fileLength.toInt [], seekPosition)
  | getCurrentPos => pure (.moved seekPosition.toInt [], seekPosition)

end FileRequest

/-- The file system, and the `seekPosition` of each `OpenFile`. -/
structure Session where
  table : FileTable
  seekPosition : ℕ → BitVec 32

namespace Session

variable {α : Type}

/-- A call that is about the table. -/
def onTable (c : Command FileTable α) : Command Session α := fun s =>
  (c s.table).map fun r => (r.1, { s with table := r.2 })

/-- `Open(name, type)`. A new `OpenFile` begins at `0`. -/
def openTyped (name : List Byte) (type : BitVec 32) : Command Session (Option ℕ) := fun s =>
  (FileTable.openTyped name type s.table).map fun r =>
    (r.1, ⟨r.2, Function.update s.seekPosition s.table.next 0⟩)

/-- A call of the `OpenFile` at `a`. -/
def access (a : ℕ) (op : FileRequest) : Command Session Reply := fun s =>
  match s.table.objects a with
  | none => none
  | some file => (op.run file.hdr (s.seekPosition a) s.table.disk).map fun r =>
    (r.1.1, ⟨{ s.table with disk := r.2 }, Function.update s.seekPosition a r.1.2⟩)

/-- `delete`. The slot keeps its pointer. -/
def delete (a : ℕ) : Command Session Unit := fun s =>
  match s.table.objects a with
  | none => none
  | some _ => some ((), { s with table :=
      { s.table with objects := Function.update s.table.objects a none } })

/-- Nachos is started again, without formatting. -/
def restart (beside : Int → Option ℕ) (stdin stdout : Uninitialized) : Command Session Unit :=
  fun s => (Initial.start ⟨.mount, s.table.disk, beside, stdin, stdout⟩).map fun t =>
    ((), ⟨t, fun _ => 0⟩)

/-- A call of the file system, or of a file that is open. -/
inductive Request
  | create (u : Uninitialized) (name : List Byte) (initialSize : BitVec 32)
  | remove (u : Uninitialized) (name : List Byte)
  | openTyped (name : List Byte) (type : BitVec 32)
  | access (a : ℕ) (op : FileRequest)
  | delete (a : ℕ)
  | restart (beside : Int → Option ℕ) (stdin stdout : Uninitialized)

def Request.run : Request → Command Session Reply
  | create u name initialSize => do
    let ok ← onTable (FileTable.create u name initialSize)
    pure (.done ok)
  | remove u name => do
    let ok ← onTable (FileTable.remove u name)
    pure (.done ok)
  | openTyped name type => do
    let p ← Session.openTyped name type
    pure (.handle p)
  | access a op => Session.access a op
  | delete a => do
    Session.delete a
    pure (.done true)
  | restart beside stdin stdout => do
    Session.restart beside stdin stdout
    pure (.done true)

end Session

end Nachos.Filesys
