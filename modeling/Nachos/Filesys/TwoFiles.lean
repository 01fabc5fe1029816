import Nachos.Filesys.SectorRequest
import Nachos.Machine.Memory

/-!
# The two implementations of `OpenFile`

`openfile.h` has a class over a file of the host for the `FILESYS_STUB` build and one over
sectors for the `FILESYS` build. Both are compared with a file that is a list of bytes and a
position, on which `ReadAt`, `WriteAt` and `Length` leave the position alone.

Positions stay in the file and are integers here. The number of bytes of a read may be any
`int`: its sum with the position is the one that may leave 32 bits, which the host does not
form and `openfile.cc` does not expect.
-/
namespace Nachos.Filesys

open Bytes (Byte overlay)

/-- The calls, with positions that are not negative. A write is given its bytes. -/
inductive FileOp
  | seek (position : ℕ)
  | read (numBytes : BitVec 32)
  | write (from' : List Byte)
  | readAt (numBytes : BitVec 32) (position : ℕ)
  | writeAt (from' : List Byte) (position : ℕ)
  | length
  | getCurrentPos
  deriving DecidableEq

/-- The value returned and the bytes delivered. `Seek` of the `FILESYS` build returns nothing,
so neither does that of the other here. -/
structure Answer where
  value : Int
  bytes : List Byte
  deriving DecidableEq

/-- Make the calls one after the other. -/
def runOps {α : Type} (step : FileOp → α → Option (Answer × α)) :
    List FileOp → α → Option (List Answer × α)
  | [], s => some ([], s)
  | op :: ops, s =>
    match step op s with
    | none => none
    | some (x, s') => (runOps step ops s').map fun r => (x :: r.1, r.2)

/-! ## `FILESYS_STUB` -/

/-- An `OpenFile`, its file and where the host is in it. -/
structure StubFile where
  file : HostFile
  position : ℕ
  currentOffset : Int

namespace StubFile

/-- The constructor, for a file that has just been opened. -/
def new (file : HostFile) : StubFile := ⟨file, 0, 0⟩

/-- `Seek`. `Lseek` aborts at a negative position, here and below. -/
def seek (s : StubFile) (pos : Int) : Option (Answer × StubFile) :=
  if pos < 0 then none
  else some (⟨0, []⟩, { s with position := pos.toNat, currentOffset := pos })

def readAt (s : StubFile) (numBytes position : Int) : Option (Answer × StubFile) :=
  if position < 0 then none
  else
    let into := s.file.readPartial position numBytes
    let numRead : Int := if numBytes < 0 then -1 else into.length
    some (⟨numRead, into⟩, { s with position := position.toNat + into.length })

def writeAt (s : StubFile) (from' : List Byte) (position : Int) : Option (Answer × StubFile) :=
  if position < 0 then none
  else (s.file.writeFile position.toNat from').map fun file =>
    (⟨from'.length, []⟩, { s with file := file, position := position.toNat + from'.length })

def read (s : StubFile) (numBytes : Int) : Option (Answer × StubFile) :=
  (s.readAt numBytes s.currentOffset).map fun r =>
    (r.1, { r.2 with currentOffset := r.2.currentOffset + r.1.value })

def write (s : StubFile) (from' : List Byte) : Option (Answer × StubFile) :=
  (s.writeAt from' s.currentOffset).map fun r =>
    (r.1, { r.2 with currentOffset := r.2.currentOffset + r.1.value })

def length (s : StubFile) : Option (Answer × StubFile) :=
  some (⟨s.file.contents.length, []⟩, { s with position := s.file.contents.length })

def getCurrentPos (s : StubFile) : Option (Answer × StubFile) :=
  some (⟨s.position, []⟩, { s with currentOffset := s.position })

def step (op : FileOp) (s : StubFile) : Option (Answer × StubFile) :=
  match op with
  | .seek position => s.seek position
  | .read numBytes => s.read numBytes.toInt
  | .write from' => s.write from'
  | .readAt numBytes position => s.readAt numBytes.toInt position
  | .writeAt from' position => s.writeAt from' position
  | .length => s.length
  | .getCurrentPos => s.getCurrentPos

end StubFile

/-! ## `FILESYS` -/

/-- An `OpenFile` and the disk, with what the buffers that `WriteAt` allocates hold before. -/
structure DiskFile where
  hdr : FileHeader
  seekPosition : Int
  disk : Disk
  old : ℕ → List Byte

namespace DiskFile

/-- The constructor, with the header that it has fetched. -/
def new (hdr : FileHeader) (disk : Disk) (old : ℕ → List Byte) : DiskFile := ⟨hdr, 0, disk, old⟩

def seek (t : DiskFile) (position : Int) : Option (Answer × DiskFile) :=
  some (⟨0, []⟩, { t with seekPosition := position })

/-- `ReadAt`. At a negative position there is no sector, or no place in the buffer. -/
def readAt (t : DiskFile) (numBytes position : Int) : Option (Answer × DiskFile) :=
  if position < 0 then none
  else (OpenFile.readAt t.hdr (.ofInt 32 numBytes) (.ofInt 32 position) t.disk).map fun r =>
    (⟨r.1.1.toInt, r.1.2⟩, { t with disk := r.2 })

def writeAt (t : DiskFile) (from' : List Byte) (position : Int) : Option (Answer × DiskFile) :=
  if position < 0 then none
  else
    (OpenFile.writeAt t.hdr from' (.ofNat 32 from'.length) (.ofInt 32 position) (t.old 0)
      t.disk).map fun r =>
        (⟨r.1.toInt, []⟩, { t with disk := r.2, old := fun i => t.old (i + 1) })

def read (t : DiskFile) (numBytes : Int) : Option (Answer × DiskFile) :=
  (t.readAt numBytes t.seekPosition).map fun r =>
    (r.1, { r.2 with seekPosition := r.2.seekPosition + r.1.value })

def write (t : DiskFile) (from' : List Byte) : Option (Answer × DiskFile) :=
  (t.writeAt from' t.seekPosition).map fun r =>
    (r.1, { r.2 with seekPosition := r.2.seekPosition + r.1.value })

def length (t : DiskFile) : Option (Answer × DiskFile) :=
  some (⟨t.hdr.numBytes.toInt, []⟩, t)

def getCurrentPos (t : DiskFile) : Option (Answer × DiskFile) :=
  some (⟨t.seekPosition, []⟩, t)

def step (op : FileOp) (t : DiskFile) : Option (Answer × DiskFile) :=
  match op with
  | .seek position => t.seek position
  | .read numBytes => t.read numBytes.toInt
  | .write from' => t.write from'
  | .readAt numBytes position => t.readAt numBytes.toInt position
  | .writeAt from' position => t.writeAt from' position
  | .length => t.length
  | .getCurrentPos => t.getCurrentPos

end DiskFile

/-! ## Bytes and a position -/

/-- What both are to be. -/
structure PlainFile where
  contents : List Byte
  position : ℕ

namespace FileOp

/-- The bytes a call of `Read` or `ReadAt` delivers from a position. -/
def delivered (contents : List Byte) (numBytes : Int) (position : ℕ) : List Byte :=
  (contents.drop position).take numBytes.toNat

def answer (a : PlainFile) : FileOp → Answer
  | .seek _ => ⟨0, []⟩
  | .read numBytes =>
    ⟨(delivered a.contents numBytes.toInt a.position).length,
      delivered a.contents numBytes.toInt a.position⟩
  | .readAt numBytes position =>
    ⟨(delivered a.contents numBytes.toInt position).length,
      delivered a.contents numBytes.toInt position⟩
  | .write from' | .writeAt from' _ => ⟨from'.length, []⟩
  | .length => ⟨a.contents.length, []⟩
  | .getCurrentPos => ⟨a.position, []⟩

/-- The position after a call on a file of `size` bytes. -/
def nextPosition (size position : ℕ) : FileOp → ℕ
  | .seek p => p
  | .read numBytes => position + min numBytes.toInt.toNat (size - position)
  | .write from' => position + from'.length
  | _ => position

def nextContents (a : PlainFile) : FileOp → List Byte
  | .write from' => overlay a.contents a.position from'
  | .writeAt from' position => overlay a.contents position from'
  | _ => a.contents

def after (a : PlainFile) (op : FileOp) : PlainFile :=
  ⟨op.nextContents a, op.nextPosition a.contents.length a.position⟩

/-- Positions are in the file or at its end, and writes stay in it. -/
def Allowed (size position : ℕ) : FileOp → Prop
  | .seek p | .readAt _ p => p ≤ size
  | .write from' => position + from'.length ≤ size
  | .writeAt from' p => p + from'.length ≤ size
  | _ => True

/-- Where the host is in its file after a call. -/
def nextHost (size position host : ℕ) : FileOp → ℕ
  | .seek p => p
  | .read numBytes => position + min numBytes.toInt.toNat (size - position)
  | .write from' => position + from'.length
  | .readAt numBytes p => p + min numBytes.toInt.toNat (size - p)
  | .writeAt from' p => p + from'.length
  | .length => size
  | .getCurrentPos => host

/-- The number of bytes is not negative, and its sum with a position before the end is an
`int`. -/
structure Fits (size : ℕ) (numBytes : BitVec 32) (position : ℕ) : Prop where
  nonneg : 0 ≤ numBytes.toInt
  noOverflow : position < size → position + numBytes.toInt < 2 ^ 31

/-- A read fits, and where the position is asked for the host is at it. -/
def Undisturbed (size position host : ℕ) : FileOp → Prop
  | .read numBytes => Fits size numBytes position
  | .readAt numBytes p => Fits size numBytes p
  | .getCurrentPos => host = position
  | .seek _ | .write _ | .writeAt _ _ | .length => True

end FileOp

/-- All calls are allowed, one after the other. -/
def AllAllowed (size : ℕ) : ℕ → List FileOp → Prop
  | _, [] => True
  | position, op :: ops =>
    op.Allowed size position ∧ AllAllowed size (op.nextPosition size position) ops

/-- Both go undisturbed through all calls. -/
def AllUndisturbed (size : ℕ) : ℕ → ℕ → List FileOp → Prop
  | _, _, [] => True
  | position, host, op :: ops =>
    op.Undisturbed size position host ∧
      AllUndisturbed size (op.nextPosition size position) (op.nextHost size position host) ops

variable {a : PlainFile} {op : FileOp} {ops : List FileOp} {n : BitVec 32} {p : ℕ}
  {bs : List Byte}

theorem length_delivered (contents : List Byte) (n : Int) (p : ℕ) :
    (FileOp.delivered contents n p).length = min n.toNat (contents.length - p) := by
  simp [FileOp.delivered]

theorem length_after (hop : op.Allowed a.contents.length a.position) :
    (op.after a).contents.length = a.contents.length := by
  cases op with
  | write from' => exact Bytes.length_overlay hop
  | writeAt from' position => exact Bytes.length_overlay hop
  | _ => rfl

/-- The position never leaves the file. -/
theorem nextPosition_le {size position : ℕ} (hop : op.Allowed size position)
    (h : position ≤ size) : op.nextPosition size position ≤ size := by
  cases op with
  | seek p => exact hop
  | read numBytes =>
    simp only [FileOp.nextPosition]
    omega
  | write from' => exact hop
  | _ => exact h

/-! ## The file on disk is plain -/

/-- The file on disk is the plain file. -/
structure DiskFile.Shows (t : DiskFile) (a : PlainFile) : Prop where
  placed : t.hdr.Placed
  contents : t.hdr.bytes t.disk = a.contents
  position : t.seekPosition = a.position

namespace DiskFile

variable {t : DiskFile}

theorem Shows.length (h : t.Shows a) : t.hdr.numBytes.toNat = a.contents.length := by
  rw [← h.contents]
  exact h.placed.length_bytes.symm

/-- A write that stays in the file. -/
theorem writeAt_spec (hp : t.hdr.Placed) (bs : List Byte)
    (hin : p + bs.length ≤ t.hdr.numBytes.toNat) :
    ∃ d', t.hdr.writeAt bs bs.length p (t.old 0) t.disk = some (bs.length, d') ∧
      t.writeAt bs p =
        some (⟨bs.length, []⟩, { t with disk := d', old := fun i => t.old (i + 1) }) ∧
      t.hdr.bytes d' = overlay (t.hdr.bytes t.disk) p bs := by
  have hbound := (OpenFile.size_bound hp).1
  have hmin : min ((bs.length : Int)).toNat (t.hdr.numBytes.toNat - p) = bs.length := by omega
  obtain ⟨d', hw, hbytes, -⟩ := hp.writeAt (d := t.disk) bs.length p hmin.le (t.old 0)
  rw [hmin, List.take_length] at hbytes
  rw [hmin] at hw
  refine ⟨d', hw, ?_, hbytes⟩
  have hposition := Word.toInt_ofNat (n := p) (by omega)
  have hlength := Word.toInt_ofNat (n := bs.length) (by omega)
  have hwords : OpenFile.writeAt t.hdr bs (BitVec.ofNat 32 bs.length) (BitVec.ofNat 32 p) (t.old 0)
      t.disk = _ := OpenFile.writeAt_eq hp (by omega) (by omega)
  rw [hlength, Word.toNat_ofNat (by omega), hw] at hwords
  unfold DiskFile.writeAt
  rw [if_neg (by omega), BitVec.ofInt_natCast, hwords]
  simp only [Option.map_some, hlength]

/-- A read whose sum does not overflow. -/
theorem readAt_spec (hp : t.hdr.Placed) (hin : p ≤ t.hdr.numBytes.toNat)
    (hsum : p < t.hdr.numBytes.toNat → p + n.toInt < 2 ^ 31) :
    t.readAt n.toInt p = some (⟨(FileOp.delivered (t.hdr.bytes t.disk) n.toInt p).length,
      FileOp.delivered (t.hdr.bytes t.disk) n.toInt p⟩, t) := by
  have hlen := hp.length_bytes (d := t.disk)
  have hbound := (OpenFile.size_bound hp).1
  have hposition := Word.toInt_ofNat (n := p) (by omega)
  have hnat := Word.toNat_ofNat (n := p) (by omega)
  have hcount : OpenFile.transferred t.hdr n (BitVec.ofNat 32 p) =
      min n.toInt.toNat (t.hdr.numBytes.toNat - p) := by
    rw [← OpenFile.granted_eq hp, hp.granted_spec, hnat]
  have hread : OpenFile.readAt t.hdr n (BitVec.ofNat 32 p) t.disk = _ :=
    OpenFile.readAt_spec hp (by omega) (by omega)
  have hbytes : ((t.hdr.bytes t.disk).drop p).take (min n.toInt.toNat (t.hdr.numBytes.toNat - p)) =
      FileOp.delivered (t.hdr.bytes t.disk) n.toInt p := by
    rw [FileOp.delivered, List.take_eq_take_iff, List.length_drop, hlen]
    omega
  rw [hcount, hnat, hbytes, ← hlen, ← length_delivered] at hread
  have hvalue := Word.toInt_ofNat
    (n := (FileOp.delivered (t.hdr.bytes t.disk) n.toInt p).length) (by
      rw [length_delivered]
      omega)
  unfold DiskFile.readAt
  rw [if_neg (by omega), BitVec.ofInt_natCast, BitVec.ofInt_toInt, hread]
  simp only [Option.map_some, hvalue]

/-- A read of the beginning of the file. -/
theorem readAt_start (hp : t.hdr.Placed) {k : ℕ} (hk : k ≤ t.hdr.numBytes.toNat) :
    t.readAt k 0 = some (⟨k, (t.hdr.bytes t.disk).take k⟩, t) := by
  have hbound := (OpenFile.size_bound hp).1
  have hcount := Word.toInt_ofNat (n := k) (by omega)
  have hread := readAt_spec (n := BitVec.ofNat 32 k) hp (Nat.zero_le _) (by omega)
  have hlen : ((t.hdr.bytes t.disk).take k).length = k := by
    rw [List.length_take, hp.length_bytes, Nat.min_eq_left hk]
  rw [hcount, FileOp.delivered, Int.toNat_natCast, List.drop_zero, hlen] at hread
  exact hread

theorem Shows.readAt (h : t.Shows a) (hp : p ≤ a.contents.length)
    (hsum : p < a.contents.length → p + n.toInt < 2 ^ 31) :
    t.readAt n.toInt p = some (⟨(FileOp.delivered a.contents n.toInt p).length,
      FileOp.delivered a.contents n.toInt p⟩, t) := by
  rw [← h.length] at hp hsum
  have hread := readAt_spec h.placed hp hsum
  rwa [h.contents] at hread

theorem Shows.writeAt (h : t.Shows a) (hp : p + bs.length ≤ a.contents.length) :
    ∃ t', t.writeAt bs p = some (⟨bs.length, []⟩, t') ∧
      t'.Shows ⟨overlay a.contents p bs, a.position⟩ := by
  obtain ⟨d', -, hw, hbytes⟩ := writeAt_spec h.placed bs (h.length.symm ▸ hp)
  rw [h.contents] at hbytes
  exact ⟨_, hw, h.placed, hbytes, h.position⟩

/-- An undisturbed call on the file on disk is a call on the plain file. -/
theorem Shows.step (h : t.Shows a) (hop : op.Allowed a.contents.length a.position) {host : ℕ}
    (hpos : a.position ≤ a.contents.length)
    (hu : op.Undisturbed a.contents.length a.position host) :
    ∃ t', t.step op = some (op.answer a, t') ∧ t'.Shows (op.after a) := by
  cases op with
  | seek position => exact ⟨_, rfl, h.placed, h.contents, rfl⟩
  | read numBytes =>
    refine ⟨{ t with seekPosition := t.seekPosition +
      (FileOp.delivered a.contents numBytes.toInt a.position).length }, ?_, h.placed,
      h.contents, ?_⟩
    · simp only [DiskFile.step, DiskFile.read, h.position, h.readAt hpos hu.noOverflow,
        Option.map_some]
      rfl
    · simp only [FileOp.after, FileOp.nextPosition, length_delivered, h.position]
      exact (Int.natCast_add _ _).symm
  | write from' =>
    obtain ⟨t', hw, ht'⟩ := h.writeAt hop
    refine ⟨{ t' with seekPosition := t'.seekPosition + from'.length }, ?_, ht'.placed,
      ht'.contents, ?_⟩
    · simp only [DiskFile.step, DiskFile.write, h.position, hw, Option.map_some]
      rfl
    · simp only [FileOp.after, FileOp.nextPosition, ht'.position]
      exact (Int.natCast_add _ _).symm
  | readAt numBytes position => exact ⟨t, h.readAt hop hu.noOverflow, h⟩
  | writeAt from' position => exact h.writeAt hop
  | length =>
    refine ⟨t, ?_, h⟩
    have hlen : t.hdr.numBytes.toInt = a.contents.length := by
      rw [h.placed.toInt_numBytes, h.length]
    simp only [DiskFile.step, DiskFile.length, hlen, FileOp.answer]
  | getCurrentPos =>
    refine ⟨t, ?_, h⟩
    simp only [DiskFile.step, DiskFile.getCurrentPos, h.position, FileOp.answer]

/-- A read whose sum overflows is not cut off at the end of the file. -/
theorem Shows.readAt_overflow (h : t.Shows a) (hp : p < a.contents.length)
    (hsum : 2 ^ 31 ≤ p + n.toInt) {x : Answer} {t' : DiskFile}
    (hx : t.readAt n.toInt p = some (x, t')) : x.value = n.toInt := by
  have hlen := h.length
  have hbound := (OpenFile.size_bound h.placed).1
  have hposition := Word.toInt_ofNat (n := p) (by omega)
  have hnat := Word.toNat_ofNat (n := p) (by omega)
  unfold DiskFile.readAt at hx
  rw [if_neg (by omega), BitVec.ofInt_natCast, BitVec.ofInt_toInt] at hx
  obtain ⟨⟨⟨k, bytes⟩, d'⟩, hread, hanswer⟩ := Option.map_eq_some_iff.mp hx
  have hk := OpenFile.readAt_overflow h.placed (by omega) (by omega) (by omega) hread
  cases hanswer
  exact congrArg BitVec.toInt hk

end DiskFile

/-! ## The file of the host -/

/-- The file of the host has the contents of the plain file, and the offset is its position. -/
structure StubFile.Follows (s : StubFile) (a : PlainFile) : Prop where
  contents : s.file.contents = a.contents
  offset : s.currentOffset = a.position

namespace StubFile

variable {s : StubFile}

theorem Follows.readAt {n : Int} (h : s.Follows a) (hn : 0 ≤ n) (p : ℕ) :
    s.readAt n p = some (⟨(FileOp.delivered a.contents n p).length,
      FileOp.delivered a.contents n p⟩,
      { s with position := p + min n.toNat (a.contents.length - p) }) := by
  unfold StubFile.readAt
  rw [if_neg (by omega)]
  simp only [HostFile.readPartial, Int.toNat_natCast, h.contents, if_neg (by omega : ¬n < 0)]
  rw [← FileOp.delivered, length_delivered]

/-- A negative number of bytes is an error on the host, and nothing on the plain file. -/
theorem readAt_neg {n : Int} (s : StubFile) (hn : n < 0) (p : ℕ) :
    s.readAt n p = some (⟨-1, []⟩, { s with position := p }) := by
  unfold StubFile.readAt
  have hz : n.toNat = 0 := Int.toNat_of_nonpos hn.le
  rw [if_neg (by omega)]
  simp [HostFile.readPartial, hz, hn]

theorem Follows.writeAt (h : s.Follows a) (hp : p + bs.length ≤ a.contents.length) :
    ∃ s', s.writeAt bs p = some (⟨bs.length, []⟩, s') ∧
      s'.Follows ⟨overlay a.contents p bs, a.position⟩ ∧ s'.position = p + bs.length := by
  have hsmall := s.file.small
  rw [h.contents] at hsmall
  obtain ⟨f, hf, hcontents⟩ := s.file.writeFile_eq p bs (by omega)
  refine ⟨{ s with file := f, position := p + bs.length }, ?_, ⟨?_, h.offset⟩, rfl⟩
  · unfold StubFile.writeAt
    rw [if_neg (by omega), Int.toNat_natCast, hf]
    rfl
  · rw [hcontents, h.contents, Bytes.overwrite_of_le (by omega)]

/-- An undisturbed call on the host's file is a call on the plain file. -/
theorem Follows.step (h : s.Follows a) (hop : op.Allowed a.contents.length a.position)
    (hu : op.Undisturbed a.contents.length a.position s.position) :
    ∃ s', s.step op = some (op.answer a, s') ∧ s'.Follows (op.after a) ∧
      s'.position = op.nextHost a.contents.length a.position s.position := by
  cases op with
  | seek position =>
    refine ⟨{ s with position := position, currentOffset := position }, ?_, ⟨h.contents, rfl⟩, rfl⟩
    simp only [StubFile.step, StubFile.seek]
    rw [if_neg (by omega), Int.toNat_natCast]
    rfl
  | read numBytes =>
    refine ⟨⟨s.file, a.position + min numBytes.toInt.toNat (a.contents.length - a.position),
      a.position + (FileOp.delivered a.contents numBytes.toInt a.position).length⟩, ?_,
      ⟨h.contents, ?_⟩, rfl⟩
    · simp only [StubFile.step, StubFile.read, h.offset, h.readAt hu.nonneg, Option.map_some]
      rfl
    · simp only [FileOp.after, FileOp.nextPosition, length_delivered]
      exact (Int.natCast_add _ _).symm
  | write from' =>
    obtain ⟨s', hw, hs', hpos⟩ := h.writeAt hop
    refine ⟨{ s' with currentOffset := s'.currentOffset + from'.length }, ?_,
      ⟨hs'.contents, ?_⟩, hpos⟩
    · simp only [StubFile.step, StubFile.write, h.offset, hw, Option.map_some]
      rfl
    · simp only [FileOp.after, FileOp.nextPosition, hs'.offset]
      exact (Int.natCast_add _ _).symm
  | readAt numBytes position =>
    exact ⟨_, h.readAt hu.nonneg position, ⟨h.contents, h.offset⟩, rfl⟩
  | writeAt from' position => exact h.writeAt hop
  | length =>
    refine ⟨{ s with position := a.contents.length }, ?_, ⟨h.contents, h.offset⟩, rfl⟩
    simp only [StubFile.step, StubFile.length, h.contents, FileOp.answer]
  | getCurrentPos =>
    have hu : s.position = a.position := hu
    refine ⟨{ s with currentOffset := s.position }, ?_, ⟨h.contents, congrArg Nat.cast hu⟩, rfl⟩
    simp only [StubFile.step, StubFile.getCurrentPos, hu, FileOp.answer]

end StubFile

/-! ## The comparison -/

/-- Both implementations answer every call, in the same way, and end with the same contents. -/
def Agree (ops : List FileOp) (s : StubFile) (t : DiskFile) : Prop :=
  ∃ xs s' t', runOps StubFile.step ops s = some (xs, s') ∧
    runOps DiskFile.step ops t = some (xs, t') ∧ s'.file.contents = t'.hdr.bytes t'.disk

theorem runOps_cons {α : Type} {step : FileOp → α → Option (Answer × α)} {s s' : α} {x : Answer}
    (h : step op s = some (x, s')) :
    runOps step (op :: ops) s = (runOps step ops s').map fun r => (x :: r.1, r.2) := by
  simp only [runOps, h]

/-- One call that both answer alike. -/
theorem agree_cons {s s' : StubFile} {t t' : DiskFile} {x : Answer}
    (hs : s.step op = some (x, s')) (ht : t.step op = some (x, t')) :
    Agree (op :: ops) s t ↔ Agree ops s' t' := by
  unfold Agree
  rw [runOps_cons hs, runOps_cons ht]
  constructor
  · rintro ⟨xs, u, v, hu, hv, he⟩
    obtain ⟨⟨ys, u'⟩, hy, hyu⟩ := Option.map_eq_some_iff.mp hu
    obtain ⟨⟨zs, v'⟩, hz, hzv⟩ := Option.map_eq_some_iff.mp hv
    cases hyu
    cases hzv
    exact ⟨ys, u', v', hy, hz, he⟩
  · rintro ⟨xs, u, v, hu, hv, he⟩
    exact ⟨x :: xs, u, v, by rw [hu]; rfl, by rw [hv]; rfl, he⟩

/-- They answer the first call alike. -/
theorem agree_head {s : StubFile} {t : DiskFile} (h : Agree (op :: ops) s t) :
    ∃ x s' t', s.step op = some (x, s') ∧ t.step op = some (x, t') := by
  obtain ⟨xs, u, v, hu, hv, -⟩ := h
  cases hs : s.step op with
  | none =>
    rw [runOps, hs] at hu
    cases hu
  | some r =>
    cases ht : t.step op with
    | none =>
      rw [runOps, ht] at hv
      cases hv
    | some q =>
      obtain ⟨x, s'⟩ := r
      obtain ⟨y, t'⟩ := q
      rw [runOps_cons hs] at hu
      rw [runOps_cons ht] at hv
      obtain ⟨⟨ys, u'⟩, -, hyu⟩ := Option.map_eq_some_iff.mp hu
      obtain ⟨⟨zs, v'⟩, -, hzv⟩ := Option.map_eq_some_iff.mp hv
      cases hyu
      simp only [Prod.mk.injEq, List.cons.injEq] at hzv
      exact ⟨x, s', t', rfl, by rw [hzv.1.1]⟩

/-- A read that does not fit: the host takes a negative number for an error, and `openfile.cc`
misses the end of the file after an overflow. -/
theorem readAt_differs {s s' : StubFile} {t t' : DiskFile} {x y : Answer} (hs : s.Follows a)
    (ht : t.Shows a) (hp : p ≤ a.contents.length) (hfit : ¬FileOp.Fits a.contents.length n p)
    (hx : s.readAt n.toInt p = some (x, s')) (hy : t.readAt n.toInt p = some (y, t')) :
    x.value ≠ y.value := by
  have hlen := ht.length
  have hbound := (OpenFile.size_bound ht.placed).1
  by_cases hn : 0 ≤ n.toInt
  · have hover : p < a.contents.length ∧ 2 ^ 31 ≤ p + n.toInt := by
      by_contra hnot
      exact hfit ⟨hn, fun hp => not_le.mp fun hle => hnot ⟨hp, hle⟩⟩
    have hvalue := ht.readAt_overflow hover.1 hover.2 hy
    have hcount := length_delivered a.contents n.toInt p
    rw [hs.readAt hn] at hx
    cases hx
    simp only
    omega
  · rw [StubFile.readAt_neg s (by omega)] at hx
    rw [ht.readAt hp (by omega)] at hy
    cases hx
    cases hy
    simp only
    omega

/-- A disturbed call is not answered alike. -/
theorem differs_of_disturbed {s s' : StubFile} {t t' : DiskFile} {x : Answer} (hs : s.Follows a)
    (ht : t.Shows a) (hop : op.Allowed a.contents.length a.position)
    (hpos : a.position ≤ a.contents.length)
    (hu : ¬op.Undisturbed a.contents.length a.position s.position)
    (hx : s.step op = some (x, s')) : t.step op ≠ some (x, t') := by
  intro hy
  cases op with
  | read numBytes =>
    obtain ⟨⟨y, u⟩, hread, hanswer⟩ := Option.map_eq_some_iff.mp hx
    obtain ⟨⟨z, v⟩, hread', hanswer'⟩ := Option.map_eq_some_iff.mp hy
    rw [hs.offset] at hread
    rw [ht.position] at hread'
    cases hanswer
    cases hanswer'
    exact readAt_differs hs ht hpos hu hread hread' rfl
  | readAt numBytes position => exact readAt_differs hs ht hop hu hx hy rfl
  | getCurrentPos =>
    have hu : s.position ≠ a.position := hu
    cases hx
    simp only [DiskFile.step, DiskFile.getCurrentPos, ht.position, Option.some.injEq,
      Prod.mk.injEq, Answer.mk.injEq, Int.natCast_inj, and_true] at hy
    exact hu hy.1.symm
  | _ => exact hu trivial

/-- By induction on the calls. Up to the first disturbed one both are the plain file. -/
theorem agree_iff_undisturbed {s : StubFile} {t : DiskFile} (hs : s.Follows a) (ht : t.Shows a)
    (hpos : a.position ≤ a.contents.length)
    (hops : AllAllowed a.contents.length a.position ops) :
    Agree ops s t ↔ AllUndisturbed a.contents.length a.position s.position ops := by
  induction ops generalizing a s t with
  | nil => exact iff_of_true ⟨[], s, t, rfl, rfl, hs.contents.trans ht.contents.symm⟩ trivial
  | cons op ops ih =>
    obtain ⟨hop, hops⟩ := hops
    by_cases hu : op.Undisturbed a.contents.length a.position s.position
    · obtain ⟨t', htstep, ht'⟩ := ht.step hop hpos hu
      obtain ⟨s', hsstep, hs', hhost⟩ := hs.step hop hu
      rw [agree_cons hsstep htstep]
      have hlen := length_after hop
      have hnext : (op.after a).position ≤ (op.after a).contents.length := by
        rw [hlen]
        exact nextPosition_le hop hpos
      have hrest : AllAllowed (op.after a).contents.length (op.after a).position ops := by
        rw [hlen]
        exact hops
      rw [ih hs' ht' hnext hrest, hlen, hhost]
      exact ⟨fun h => ⟨hu, h⟩, fun h => h.2⟩
    · refine iff_of_false (fun hagree => ?_) fun h => hu h.1
      obtain ⟨x, s', t', hsstep, htstep⟩ := agree_head hagree
      exact differs_of_disturbed hs ht hop hpos hu hsstep htstep

/-- On files of the same contents, the two implementations agree on a sequence of calls exactly
if no read is of a negative number of bytes or of so many that the sum overflows, and
`GetCurrentPos` is only called when the host has been left at the position. -/
theorem openFiles_agree_iff {f : HostFile} {hdr : FileHeader} {d : Disk} {old : ℕ → List Byte}
    (hp : hdr.Placed) (hsame : f.contents = hdr.bytes d)
    (hops : AllAllowed hdr.numBytes.toNat 0 ops) :
    Agree ops (.new f) (.new hdr d old) ↔ AllUndisturbed hdr.numBytes.toNat 0 0 ops := by
  have hs : (StubFile.new f).Follows ⟨f.contents, 0⟩ := ⟨rfl, rfl⟩
  have ht : (DiskFile.new hdr d old).Shows ⟨f.contents, 0⟩ := ⟨hp, hsame.symm, rfl⟩
  have hlen : f.contents.length = hdr.numBytes.toNat := by
    rw [hsame]
    exact hp.length_bytes
  have hrest : AllAllowed f.contents.length 0 ops := by
    rw [hlen]
    exact hops
  have hagree := agree_iff_undisturbed hs ht (Nat.zero_le _) hrest
  rwa [hlen] at hagree

/-- A file of four bytes in sector 5. -/
def sampleHeader : FileHeader := ⟨4, 1, [5]⟩

def sampleDisk : Disk := fun _ => sectorOf [65, 66, 67, 68]

theorem placed_sampleHeader : sampleHeader.Placed where
  small := by decide
  covers := by decide
  nodup := by decide
  range s hs := by
    rw [List.mem_singleton.mp hs]
    decide

/-- The same file on the host. -/
def sampleFile : HostFile where
  contents := sampleHeader.bytes sampleDisk
  small := by
    rw [placed_sampleHeader.length_bytes]
    decide

/-- A read leaves the host at the position, which may be asked for, whatever was done before. -/
theorem openFiles_agree_sample :
    Agree [.readAt 3 1, .length, .read 2, .getCurrentPos, .write [1], .writeAt [2] 0]
      (.new sampleFile) (.new sampleHeader sampleDisk fun _ => []) := by
  refine (openFiles_agree_iff placed_sampleHeader rfl ?_).mpr ?_
  · simp [AllAllowed, FileOp.Allowed, FileOp.nextPosition, sampleHeader]
  · have hread : FileOp.Fits 4 3 1 ∧ FileOp.Fits 4 2 0 :=
      ⟨⟨by decide, by decide⟩, by decide, by decide⟩
    simpa [AllUndisturbed, FileOp.Undisturbed, FileOp.nextPosition, FileOp.nextHost, sampleHeader]
      using hread

/-- `ReadAt` of one byte at `0` moves the host, and `GetCurrentPos` takes its place for the
position. -/
theorem openFiles_disagree :
    AllAllowed sampleHeader.numBytes.toNat 0 [.readAt 1 0, .getCurrentPos] ∧
      ¬Agree [.readAt 1 0, .getCurrentPos] (.new sampleFile)
        (.new sampleHeader sampleDisk fun _ => []) := by
  have hops : AllAllowed sampleHeader.numBytes.toNat 0 [.readAt 1 0, .getCurrentPos] := by
    simp [AllAllowed, FileOp.Allowed]
  refine ⟨hops, fun hagree => ?_⟩
  have hs : (StubFile.new sampleFile).Follows ⟨sampleFile.contents, 0⟩ := ⟨rfl, rfl⟩
  have ht : (DiskFile.new sampleHeader sampleDisk fun _ => []).Shows ⟨sampleFile.contents, 0⟩ :=
    ⟨placed_sampleHeader, rfl, rfl⟩
  have hlen : sampleFile.contents.length = 4 := placed_sampleHeader.length_bytes
  have hall : AllAllowed sampleFile.contents.length 0 [.readAt 1 0, .getCurrentPos] := by
    rw [hlen]
    exact hops
  have hu := (agree_iff_undisturbed hs ht (Nat.zero_le _) hall).mp hagree
  simp only [AllUndisturbed, FileOp.Undisturbed, FileOp.nextHost, hlen] at hu
  exact absurd hu.2.1 (by decide)

end Nachos.Filesys
