import Nachos.Filesys.Directory
import Nachos.Lib.System

/-!
# The file system

`filesys.cc`: formatting, `Create` and `Remove`. Bitmap and directory are files of their
own, fetched before and written back after each change.
-/
namespace Nachos.Filesys

open Bytes (Byte)
open Command (stop)

def FreeMapSector : BitVec 32 := 0
def DirectorySector : BitVec 32 := 1
def FreeMapFileSize : BitVec 32 := BitVec.ofNat 32 (NumSectors / 8)
def DirectoryFileSize : BitVec 32 := BitVec.ofNat 32 (entrySize * NumDirEntries)

/-- `BitMap::FetchFrom` for the map of free sectors. -/
def fetchMap (file : FileHeader) : Command Disk BitMap := do
  let bs ← file.readAt (4 * (BitMap.ofSize NumSectors).numWords : ℕ) 0
  pure (BitMap.ofBytes NumSectors bs)

/-- `BitMap::WriteBack`. -/
def writeMap (freeMap : BitMap) (file : FileHeader) (old : List Byte) : Command Disk ℕ :=
  file.writeAt freeMap.bytes (4 * freeMap.numWords : ℕ) 0 old

/-- `class FileSystem`, as far as it is about the disk: the headers of its two open files. -/
structure FileSystem where
  freeMapFile : FileHeader
  directoryFile : FileHeader

/-- What new memory held before, in one call. -/
structure Uninitialized where
  hdr : List Byte
  hdr' : List Byte
  table : List Byte
  buf : List Byte
  buf' : List Byte

namespace FileSystem

/-- `Create` after a sector was found and the name was added. -/
def createIn (fs : FileSystem) (u : Uninitialized) (directory : Directory) (freeMap : BitMap)
    (sector initialSize : BitVec 32) : Command Disk Bool :=
  match (FileHeader.decode u.hdr).allocate freeMap initialSize with
  | none => pure false
  | some (hdr, freeMap) => do
    hdr.writeBack sector
    let _ ← directory.writeBack fs.directoryFile u.buf
    let _ ← writeMap freeMap fs.freeMapFile u.buf'
    pure true

def create (fs : FileSystem) (u : Uninitialized) (name : List Byte) (initialSize : BitVec 32) :
    Command Disk Bool := do
  let directory ← Directory.fetchFrom fs.directoryFile
  if directory.find name ≠ -1 then pure false
  else do
    let freeMap ← fetchMap fs.freeMapFile
    let r := freeMap.find
    if r.1 = -1 then pure false
    else
      match directory.add name (BitVec.ofInt 32 r.1) with
      | none => pure false
      | some directory => fs.createIn u directory r.2 (BitVec.ofInt 32 r.1) initialSize

/-- `Remove` after the header was fetched. -/
def removeIn (fs : FileSystem) (u : Uninitialized) (directory : Directory) (name : List Byte)
    (sector : BitVec 32) (fileHdr : FileHeader) (freeMap : BitMap) : Command Disk Bool :=
  match fileHdr.deallocate freeMap with
  | none => stop
  | some freeMap =>
    if sector.toNat < freeMap.numBits then do
      let _ ← writeMap (freeMap.clear sector.toNat) fs.freeMapFile u.buf'
      let _ ← ((directory.remove name).getD directory).writeBack fs.directoryFile u.buf
      pure true
    else stop

def remove (fs : FileSystem) (u : Uninitialized) (name : List Byte) : Command Disk Bool := do
  let directory ← Directory.fetchFrom fs.directoryFile
  let sector := directory.find name
  if sector = -1 then pure false
  else do
    let fileHdr ← FileHeader.fetchFrom sector
    let freeMap ← fetchMap fs.freeMapFile
    fs.removeIn u directory name sector fileHdr freeMap

/-- `new Directory(NumDirEntries)`. -/
def newDirectory (u : Uninitialized) : Directory :=
  (Directory.decode ((u.table ++ List.replicate (entrySize * NumDirEntries) 0).take
    (entrySize * NumDirEntries))).map fun e => { e with inUse := false }

/-- Formatting after the two files have got their sectors. -/
def formatWith (u : Uninitialized) (mapHdr dirHdr : FileHeader) (freeMap : BitMap) :
    Command Disk FileSystem := do
  mapHdr.writeBack FreeMapSector
  dirHdr.writeBack DirectorySector
  let freeMapFile ← FileHeader.fetchFrom FreeMapSector
  let directoryFile ← FileHeader.fetchFrom DirectorySector
  let _ ← writeMap freeMap freeMapFile u.buf
  let _ ← (newDirectory u).writeBack directoryFile u.buf'
  pure ⟨freeMapFile, directoryFile⟩

/-- A new bitmap, with the sectors of the two headers marked. -/
def newMap : BitMap :=
  ((BitMap.ofSize NumSectors).mark FreeMapSector.toNat).mark DirectorySector.toNat

/-- What `FileSystem::FileSystem` does when it formats the disk. -/
def format (u : Uninitialized) : Command Disk FileSystem :=
  match (FileHeader.decode u.hdr).allocate newMap FreeMapFileSize with
  | none => stop
  | some (mapHdr, freeMap) =>
    match (FileHeader.decode u.hdr').allocate freeMap DirectoryFileSize with
    | none => stop
    | some (dirHdr, freeMap) => formatWith u mapHdr dirHdr freeMap

theorem format_eq {u : Uninitialized} {mapHdr dirHdr : FileHeader} {m₁ m₂ : BitMap}
    (hmap : (FileHeader.decode u.hdr).allocate newMap FreeMapFileSize = some (mapHdr, m₁))
    (hdir : (FileHeader.decode u.hdr').allocate m₁ DirectoryFileSize = some (dirHdr, m₂)) :
    format u = formatWith u mapHdr dirHdr m₂ := by
  unfold format
  simp only [hmap, hdir]

/-- `Open`, as far as it is about the disk: the header of the file, if it is there. -/
def open' (fs : FileSystem) (name : List Byte) : Command Disk (Option FileHeader) := do
  let directory ← Directory.fetchFrom fs.directoryFile
  let sector := directory.find name
  if 0 ≤ sector.toInt then do
    let hdr ← FileHeader.fetchFrom sector
    pure (some hdr)
  else pure none

/-! Reading leaves the disk as it is. -/

instance (sectorNumber : BitVec 32) : Command.Keeps Eq (readSector sectorNumber) := ⟨by
  intro d s d' h
  rw [readSector] at h
  split at h <;> cases h
  rfl⟩

instance (hdr : FileHeader) (is : List ℕ) : Command.Keeps Eq (hdr.readSectors is) := by
  induction is with
  | nil => unfold FileHeader.readSectors; infer_instance
  | cons i is ih => unfold FileHeader.readSectors; infer_instance

instance (hdr : FileHeader) (numBytes : Int) (position : ℕ) :
    Command.Keeps Eq (hdr.readAt numBytes position) := by
  unfold FileHeader.readAt
  infer_instance

instance (file : FileHeader) : Command.Keeps Eq (Directory.fetchFrom file) := by
  unfold Directory.fetchFrom
  infer_instance

instance (sector : BitVec 32) : Command.Keeps Eq (FileHeader.fetchFrom sector) := by
  unfold FileHeader.fetchFrom
  infer_instance

instance (fs : FileSystem) (name : List Byte) : Command.Keeps Eq (fs.open' name) := by
  unfold open'
  infer_instance

/-- The characters of a literal. -/
def chars (s : String) : List Byte := s.toList.map fun c => BitVec.ofNat 8 c.toNat

/-- `FileSystem(TRUE)`, with new memory of its own for each part. -/
def construct (u stdin stdout : Uninitialized) : Command Disk FileSystem := do
  let fs ← format u
  let _ ← fs.open' (chars "stdin")
  let _ ← fs.open' (chars "stdout")
  let _ ← fs.create stdin (chars "stdin") 0
  let _ ← fs.create stdout (chars "stdout") 0
  pure fs

end FileSystem

/-- A call of `Create` or `Remove`. -/
inductive Call
  | create (u : Uninitialized) (name : List Byte) (initialSize : BitVec 32)
  | remove (u : Uninitialized) (name : List Byte)

namespace Call

def run (fs : FileSystem) : Call → Command Disk Bool
  | create u name initialSize => fs.create u name initialSize
  | remove u name => fs.remove u name

/-- The size of a new file is in range. -/
def Sized : Call → Prop
  | create _ _ initialSize => 0 ≤ initialSize.toInt ∧ initialSize.toInt ≤ MaxFileSize
  | remove _ _ => True

/-- One call after the other, with their answers. -/
def runAll (fs : FileSystem) : List Call → Command Disk (List Bool)
  | [] => pure []
  | c :: cs => do
    let answer ← c.run fs
    let answers ← runAll fs cs
    pure (answer :: answers)

end Call

end Nachos.Filesys
