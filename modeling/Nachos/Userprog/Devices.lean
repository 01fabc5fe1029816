import Nachos.Filesys.FileBytes
import Nachos.Machine.Memory
import Nachos.Userprog.Exception

/-!
# Memory, files and the console

What the handlers of `Read` and `Write` work on: the memory of the running program, the
table of open files, and the console. An open file is one of the host in the `FILESYS_STUB`
build (`openfile.h`) and one on disk in the `FILESYS` build (`openfile.cc`).
-/
namespace Nachos

open Bytes (Byte)

/-- The fields of `class OpenFile` in either build. Of a file of the host, also where the
host is in it. -/
inductive Handle
  | host (file : ℕ) (position : ℕ) (currentOffset : BitVec 32)
  | disk (hdr : Filesys.FileHeader) (seekPosition : BitVec 32)

/-- An entry of `openf`. -/
structure Descriptor where
  type : BitVec 32
  handle : Handle

structure Devices where
  memory : UserMemory
  openf : ℕ → Option Descriptor
  files : ℕ → HostFile
  disk : Filesys.Disk
  output : List Byte

namespace Devices

variable (s : Devices)

/-- `Machine::ReadMem`. An exception ends in `Halt`. -/
def readMem (addr : BitVec 32) : Command Devices (BitVec 32) := fun s =>
  match s.memory.readByte addr with
  | .ok (value, memory) => some (value, { s with memory })
  | .error _ => none

/-- `Machine::WriteMem`. -/
def writeMem (addr value : BitVec 32) : Command Devices Unit := fun s =>
  match s.memory.writeByte addr value with
  | .ok memory => some ((), { s with memory })
  | .error _ => none

/-- `openf[id]`. -/
def descriptor (id : BitVec 32) : Option Descriptor :=
  if Services.inTable id then s.openf id.toNat else none

/-- The same table with another state of one open file. -/
def setHandle (id : BitVec 32) (d : Descriptor) (handle : Handle) : Devices :=
  { s with openf := Function.update s.openf id.toNat (some { d with handle }) }

/-- `OpenFile::GetCurrentPos`. The host is asked with `Tell`. -/
def getCurrentPos (id : BitVec 32) : Command Devices (BitVec 32) := fun s =>
  match s.descriptor id with
  | none => none
  | some d =>
    match d.handle with
    | .host file position _ =>
      some (BitVec.ofNat 32 position,
        s.setHandle id d (.host file position (BitVec.ofNat 32 position)))
    | .disk _ seekPosition => some (seekPosition, s)

/-- `OpenFile::Read`: the result, and the bytes stored. `Lseek` refuses a negative offset. -/
def read (id numBytes : BitVec 32) : Command Devices (BitVec 32 × List Byte) := fun s =>
  match s.descriptor id with
  | none => none
  | some d =>
    match d.handle with
    | .host file _ currentOffset =>
      if currentOffset.toInt < 0 then none
      else
        let into := (s.files file).readPartial currentOffset.toInt numBytes.toInt
        let numRead := if numBytes.toInt < 0 then -1 else BitVec.ofNat 32 into.length
        some ((numRead, into), s.setHandle id d
          (.host file (currentOffset.toNat + into.length) (currentOffset + numRead)))
    | .disk hdr seekPosition =>
      if seekPosition.toInt < 0 then none
      else (hdr.readAt numBytes.toInt seekPosition.toNat s.disk).map fun r =>
        ((BitVec.ofNat 32 r.1.length, r.1), { s with disk := r.2 }.setHandle id d
          (.disk hdr (seekPosition + BitVec.ofNat 32 r.1.length)))

/-- `OpenFile::Write`. On the host a negative count is an error, which passes the test for a
short write if it is `-1`. -/
def write (old : List Byte) (id : BitVec 32) (from' : List Byte) (numBytes : BitVec 32) :
    Command Devices (BitVec 32) := fun s =>
  match s.descriptor id with
  | none => none
  | some d =>
    match d.handle with
    | .host file _ currentOffset =>
      if currentOffset.toInt < 0 then none
      else if 0 ≤ numBytes.toInt then
        ((s.files file).writeFile currentOffset.toNat (from'.take numBytes.toNat)).map fun f =>
          (numBytes, { s with files := Function.update s.files file f }.setHandle id d
            (.host file (currentOffset.toNat + numBytes.toNat) (currentOffset + numBytes)))
      else if numBytes = -1 then
        some (numBytes, s.setHandle id d
          (.host file currentOffset.toNat (currentOffset + numBytes)))
      else none
    | .disk hdr seekPosition =>
      if seekPosition.toInt < 0 then none
      else (hdr.writeAt from' numBytes.toInt seekPosition.toNat old s.disk).map fun r =>
        (BitVec.ofNat 32 r.1, { s with disk := r.2 }.setHandle id d
          (.disk hdr (seekPosition + BitVec.ofNat 32 r.1)))

def consoleWrite (bs : List Byte) : Command Devices Unit := fun s =>
  some ((), { s with output := s.output ++ bs })

/-- The type of `openf[id]`. Past the end of the table there is nothing to read. -/
def fileType (id : BitVec 32) : Command Devices (Option (BitVec 32)) := fun s =>
  if Services.inTable id then some ((s.openf id.toNat).map (·.type), s) else none

/-- What `Read` and `Write` on files need of the kernel. `old` is what the buffer of `WriteAt`
held before. -/
def services (old : List Byte) : Services Devices :=
  { Services.silent with
    readMem := readMem
    writeMem := writeMem
    consoleWrite := consoleWrite
    openf := fileType
    getCurrentPos := getCurrentPos
    read := read
    write := write old }

/-! ## Files as lists of bytes -/

/-- What is in a file. -/
def contents : Handle → List Byte
  | .host file _ _ => (s.files file).contents
  | .disk hdr _ => hdr.bytes s.disk

end Devices

namespace Handle

/-- Where the next byte is read or written. -/
def position : Handle → ℕ
  | host _ position _ => position
  | disk _ seekPosition => seekPosition.toNat

/-- After `GetCurrentPos`. -/
def synced : Handle → Handle
  | host file position _ => host file position (BitVec.ofNat 32 position)
  | disk hdr seekPosition => disk hdr seekPosition

/-- After `n` bytes have been read or written. -/
def advance (n : ℕ) : Handle → Handle
  | host file position currentOffset => host file (position + n) (currentOffset + BitVec.ofNat 32 n)
  | disk hdr seekPosition => disk hdr (seekPosition + BitVec.ofNat 32 n)

/-- The position is one that a C `int` can have, and the file on disk has its sectors. -/
def Sound : Handle → Prop
  | host _ position _ => position < 2 ^ 31
  | disk hdr seekPosition => hdr.Placed ∧ 0 ≤ seekPosition.toInt

/-- The host can make the file longer by `n` bytes from here. On disk it never grows. -/
def Room (n : ℕ) : Handle → Prop
  | host _ position _ => position + n < 2 ^ 31
  | disk _ _ => True

/-- How many of `n` bytes `Write` accepts: all, or what fits into the file. -/
def accepts (n : ℕ) : Handle → ℕ
  | host _ _ _ => n
  | disk hdr seekPosition => min n (hdr.numBytes.toNat - seekPosition.toNat)

variable {h : Handle} {n : ℕ}

theorem accepts_le (h : Handle) (n : ℕ) : h.accepts n ≤ n := by
  cases h with
  | host => exact le_rfl
  | disk => exact Nat.min_le_left _ _

@[simp] theorem position_synced : h.synced.position = h.position := by cases h <;> rfl

theorem Sound.lt (hs : h.Sound) : h.position < 2 ^ 31 := by
  cases h with
  | host => exact hs
  | disk hdr seekPosition =>
    have := BitVec.toInt_pos_iff.mp hs.2
    simp only [position]
    omega

/-- A position that has moved is still the one of the host. -/
theorem synced_advance (h : Handle) (n : ℕ) : (h.synced.advance n).synced = h.synced.advance n := by
  cases h with
  | host file position currentOffset => simp [synced, advance, BitVec.ofNat_add]
  | disk => rfl

theorem position_advance (hlt : h.position + n < 2 ^ 32) :
    (h.synced.advance n).position = h.position + n := by
  cases h with
  | host => rfl
  | disk hdr seekPosition =>
    simp only [position] at hlt
    simp only [synced, advance, position, BitVec.toNat_add, BitVec.toNat_ofNat]
    omega

end Handle

namespace Devices

variable {s : Devices} {id numBytes : BitVec 32} {d : Descriptor} {h h' : Handle} {n : ℕ}

@[simp] theorem contents_synced : s.contents h.synced = s.contents h := by cases h <;> rfl

@[simp] theorem contents_setHandle : (s.setHandle id d h').contents h = s.contents h := by
  cases h <;> rfl

/-- Nothing is accepted at the end of a file on disk. -/
theorem length_le_of_accepts (hs : h.Sound) {m : ℕ} (hm : 0 < m) (ha : h.accepts m = 0) :
    (s.contents h).length ≤ h.position := by
  cases h with
  | host =>
    simp only [Handle.accepts] at ha
    omega
  | disk hdr seekPosition =>
    simp only [Handle.accepts] at ha
    simp only [contents, Handle.position, hs.1.length_bytes]
    omega

theorem length_contents (hs : h.Sound) : (s.contents h).length < 2 ^ 31 := by
  cases h with
  | host file => exact (s.files file).small
  | disk hdr seekPosition =>
    rw [contents, hs.1.length_bytes]
    exact hs.1.small

theorem descriptor_eq_some : s.descriptor id = some d ↔
    Services.inTable id ∧ s.openf id.toNat = some d := by
  unfold descriptor
  split <;> simp_all

theorem descriptor_setHandle (hd : s.descriptor id = some d) :
    (s.setHandle id d h).descriptor id = some { d with handle := h } := by
  rw [descriptor_eq_some] at hd ⊢
  exact ⟨hd.1, by simp [setHandle]⟩

@[simp] theorem setHandle_setHandle {d' : Descriptor} :
    (s.setHandle id d h).setHandle id d' h' = s.setHandle id d' h' := by
  simp [setHandle]

theorem getCurrentPos_spec (hd : s.descriptor id = some d) :
    getCurrentPos id s = some (BitVec.ofNat 32 d.handle.position,
      s.setHandle id d d.handle.synced) := by
  simp only [getCurrentPos, hd]
  cases hh : d.handle with
  | host => rfl
  | disk hdr seekPosition =>
    have hsame : s.setHandle id d (.disk hdr seekPosition) = s := by
      have := (descriptor_eq_some.mp hd).2
      rw [setHandle, ← hh, ← this, Function.update_eq_self]
    simp [Handle.synced, Handle.position, hsame]

/-- `Read` at the position that `GetCurrentPos` has found. -/
theorem read_spec (hd : s.descriptor id = some d) (hh : d.handle = h.synced) (hs : h.Sound)
    (hn : 0 ≤ numBytes.toInt) : read id numBytes s =
      some ((BitVec.ofNat 32 (min numBytes.toNat ((s.contents h).length - h.position)),
          ((s.contents h).drop h.position).take numBytes.toNat),
        s.setHandle id d
          (h.synced.advance (min numBytes.toNat ((s.contents h).length - h.position)))) := by
  have hlt := hs.lt
  have hint := Word.toNat_toInt hn
  simp only [read, hd, hh]
  cases h with
  | host file position currentOffset =>
    simp only [Handle.position] at hlt
    have hnat := Word.toNat_ofNat (n := position) (by omega)
    have hpos := Word.toInt_ofNat hlt
    simp only [Handle.synced, hpos, hnat]
    rw [if_neg (by omega), if_neg (by omega), (s.files file).length_readPartial, hint]
    simp [HostFile.readPartial, contents, Handle.position, Handle.advance, hint]
  | disk hdr seekPosition =>
    simp only [Handle.synced]
    rw [if_neg (by have := hs.2; omega), hs.1.readAt, hint]
    simp [contents, Handle.position, Handle.advance, hs.1.length_bytes]

/-- Of all that is stored, only this file has changed. -/
def OnlyFile (s s' : Devices) : Handle → Prop
  | .host file _ _ => (∀ f, f ≠ file → s'.files f = s.files f) ∧ s'.disk = s.disk
  | .disk hdr _ => s'.files = s.files ∧ ∀ n, n ∉ hdr.sectors → s'.disk n = s.disk n

/-- `Write` at the position that `GetCurrentPos` has found. -/
theorem write_spec (hd : s.descriptor id = some d) (hh : d.handle = h.synced)
    (hn : 0 ≤ numBytes.toInt) (hs : h.Sound) (hroom : h.Room numBytes.toNat) {from' : List Byte}
    (hfrom : numBytes.toNat ≤ from'.length) (old : List Byte) : ∃ s',
      write old id from' numBytes s = some (BitVec.ofNat 32 (h.accepts numBytes.toNat), s') ∧
      s'.contents h = Bytes.overwrite (s.contents h) h.position
        (from'.take (h.accepts numBytes.toNat)) ∧
      OnlyFile s s' h ∧ s'.output = s.output ∧
      s'.descriptor id = some { d with handle := h.synced.advance (h.accepts numBytes.toNat) } := by
  have hlt := hs.lt
  have hint := Word.toNat_toInt hn
  simp only [write, hd, hh]
  cases h with
  | host file position currentOffset =>
    simp only [Handle.position] at hlt
    have hnat := Word.toNat_ofNat (n := position) (by omega)
    have hpos := Word.toInt_ofNat hlt
    have hlen : (from'.take numBytes.toNat).length = numBytes.toNat := by
      rw [List.length_take, Nat.min_eq_left hfrom]
    obtain ⟨f, hf, hcontents⟩ := (s.files file).writeFile_eq position (from'.take numBytes.toNat)
      (by rw [hlen]; exact hroom)
    simp only [Handle.synced, hpos, hnat]
    rw [if_neg (by omega), if_pos hn, hf]
    refine ⟨{ s with files := Function.update s.files file f }.setHandle id d
      (.host file (position + numBytes.toNat) (BitVec.ofNat 32 position + numBytes)),
      by simp [Handle.accepts], ?_, ⟨fun g hg => Function.update_of_ne hg _ _, rfl⟩, rfl, ?_⟩
    · simp [contents, setHandle, Handle.accepts, Handle.position, hcontents]
    · have hopen := descriptor_eq_some.mp hd
      rw [descriptor_eq_some]
      exact ⟨hopen.1, by simp [setHandle, Handle.accepts, Handle.advance]⟩
  | disk hdr seekPosition =>
    have hle : min numBytes.toInt.toNat (hdr.numBytes.toNat - seekPosition.toNat) ≤ from'.length := by
      omega
    obtain ⟨disk', hrun, hbytes, hout⟩ :=
      hs.1.writeAt (d := s.disk) numBytes.toInt seekPosition.toNat hle old
    rw [hint] at hrun hbytes
    simp only [Handle.synced]
    rw [if_neg (by have := hs.2; omega), hrun]
    refine ⟨_, rfl, ?_, ⟨rfl, hout⟩, rfl, descriptor_setHandle hd⟩
    show hdr.bytes disk' = Bytes.overwrite (hdr.bytes s.disk) seekPosition.toNat
      (from'.take (min numBytes.toNat (hdr.numBytes.toNat - seekPosition.toNat)))
    by_cases hin : seekPosition.toNat ≤ hdr.numBytes.toNat
    · rw [Bytes.overwrite_of_le (by rw [hs.1.length_bytes]; exact hin), hbytes]
    · rw [hbytes, Nat.sub_eq_zero_of_le (by omega), Nat.min_zero, List.take_zero,
        Bytes.overlay_nil]
      rfl

/-- Without room, an `ASSERT` fails. -/
theorem write_eq_none (hd : s.descriptor id = some d) (hh : d.handle = h.synced)
    (hn : 0 < numBytes.toInt) (hs : h.Sound) (hroom : ¬h.Room numBytes.toNat) {from' : List Byte}
    (hfrom : numBytes.toNat ≤ from'.length) (old : List Byte) :
    write old id from' numBytes s = none := by
  have hlt := hs.lt
  cases h with
  | host file position currentOffset =>
    simp only [Handle.position, Handle.Room] at hlt hroom
    have hnat := Word.toNat_ofNat (n := position) (by omega)
    have hpos := Word.toInt_ofNat hlt
    have hlen : (from'.take numBytes.toNat).length = numBytes.toNat := by
      rw [List.length_take, Nat.min_eq_left hfrom]
    have hne : from'.take numBytes.toNat ≠ [] := by
      intro he
      rw [he, List.length_nil] at hlen
      omega
    have hbig : ¬(Bytes.overwrite (s.files file).contents position
        (from'.take numBytes.toNat)).length < 2 ^ 31 := by
      rw [Bytes.length_overwrite hne, hlen]
      omega
    simp only [write, hd, hh, Handle.synced, hpos, hnat]
    rw [if_neg (by omega), if_pos hn.le, HostFile.writeFile, dif_neg hbig]
    rfl
  | disk => exact absurd trivial hroom

/-- A program of four pages with one open file of the host, as descriptor `2`. -/
def sample (mainMemory : Bytes.Memory) (type : BitVec 32) (file : HostFile) : Devices where
  memory := ⟨mainMemory, fun p => ⟨p, p, true, false, false, false⟩, 4⟩
  openf := Function.update (fun _ => none) 2 (some ⟨type, .host 0 0 0⟩)
  files _ := file
  disk _ := Filesys.sectorOf []
  output := []

end Devices

/-- The registers at a system call with three arguments. -/
def callRegisters (code arg1 arg2 arg3 : BitVec 32) : Registers :=
  Registers.writeRegister (Registers.writeRegister (Registers.writeRegister
    (Registers.writeRegister (fun _ => 0) 2 code) 4 arg1) 5 arg2) 6 arg3

end Nachos
