import Nachos.Lib.Command
import Nachos.Userprog.AddrSpace
import Nachos.Userprog.BitMap

/-!
# Files on disk

The disk as `synchdisk.cc` gives it to the file system, file headers (`filehdr.cc`) and
`OpenFile` of the `FILESYS` build (`openfile.cc`). A failed `ASSERT` ends a command without
a result. Memory that the code does not initialise is an argument.
-/
namespace Nachos.Filesys

open Bytes (Byte overlay)
open Command (stop)

def SectorSize : ℕ := 512
def NumSectors : ℕ := 1024
def NumDirect : ℕ := 126

/-- The largest file that a header has room for. -/
def MaxFileSize : ℕ := NumDirect * SectorSize

abbrev Sector := { bs : List Byte // bs.length = SectorSize }

abbrev Disk := ℕ → Sector

/-- The first bytes of a buffer, as a sector. -/
def sectorOf (data : List Byte) : Sector :=
  ⟨(data ++ List.replicate SectorSize 0).take SectorSize, by simp⟩

theorem sectorOf_take {data : List Byte} {n : ℕ} (hd : n ≤ data.length) (hn : n ≤ SectorSize) :
    (sectorOf data).1.take n = data.take n := by
  rw [sectorOf, List.take_take, Nat.min_eq_left hn, List.take_append_of_le_length hd]

theorem sectorOf_eq {data : List Byte} (h : data.length = SectorSize) : (sectorOf data).1 = data := by
  rw [sectorOf]
  exact List.take_left' h

/-- `SynchDisk::ReadSector`. -/
def readSector (sectorNumber : BitVec 32) : Command Disk Sector := fun d =>
  if sectorNumber.toNat < NumSectors then some (d sectorNumber.toNat, d) else none

/-- `SynchDisk::WriteSector`. -/
def writeSector (sectorNumber : BitVec 32) (data : List Byte) : Command Disk Unit := fun d =>
  if sectorNumber.toNat < NumSectors then
    some ((), Function.update d sectorNumber.toNat (sectorOf data))
  else none

/-! ## File headers -/

structure FileHeader where
  numBytes : BitVec 32
  numSectors : BitVec 32
  dataSectors : List (BitVec 32)

namespace FileHeader

variable {h : FileHeader} {m : BitMap} {fileSize : BitVec 32}

/-- The header as it is in a sector. -/
def encode (h : FileHeader) : List Byte :=
  (h.numBytes :: h.numSectors :: h.dataSectors).flatMap Bytes.ofWord

def decode (bs : List Byte) : FileHeader :=
  ⟨Bytes.toWord (bs.drop (4 * 0)), Bytes.toWord (bs.drop (4 * 1)),
    (List.range NumDirect).map fun i => Bytes.toWord (bs.drop (4 * (i + 2)))⟩

def fetchFrom (sector : BitVec 32) : Command Disk FileHeader := do
  let s ← readSector sector
  pure (decode s.1)

def writeBack (h : FileHeader) (sector : BitVec 32) : Command Disk Unit :=
  writeSector sector h.encode

@[simp] theorem length_dataSectors_decode (bs : List Byte) :
    (decode bs).dataSectors.length = NumDirect := by simp [decode]

theorem length_encode (hd : h.dataSectors.length = NumDirect) : h.encode.length = SectorSize := by
  rw [encode, Bytes.length_words]
  simp [hd, NumDirect, SectorSize]

theorem decode_encode (hd : h.dataSectors.length = NumDirect) : decode h.encode = h := by
  have hword : ∀ k < 128, Bytes.toWord (h.encode.drop (4 * k)) =
      (h.numBytes :: h.numSectors :: h.dataSectors).getD k 0 := by
    intro k hk
    have hlt : k < (h.numBytes :: h.numSectors :: h.dataSectors).length := by
      simp only [List.length_cons, hd, NumDirect]
      omega
    have := Bytes.toWord_drop hlt []
    rwa [List.append_nil] at this
  have hsectors : ((List.range NumDirect).map fun i => Bytes.toWord (h.encode.drop (4 * (i + 2)))) =
      h.dataSectors := by
    refine List.ext_getElem (by simp [hd]) fun i hi hi' => ?_
    simp only [List.length_map, List.length_range, NumDirect] at hi
    rw [List.getElem_map, List.getElem_range, hword _ (by omega)]
    simp [List.getD_eq_getElem?_getD, List.getElem?_eq_getElem hi']
  rw [decode, hword 0 (by omega), hword 1 (by omega), hsectors]
  rfl

/-- The sectors a file has. -/
def sectors (h : FileHeader) : List ℕ :=
  (h.dataSectors.take h.numSectors.toInt.toNat).map BitVec.toNat

/-- `Allocate`, with what the new header held before: `none` when there is not enough space. -/
def allocate (old : FileHeader) (freeMap : BitMap) (fileSize : BitVec 32) :
    Option (FileHeader × BitMap) :=
  let numSectors := sdivRoundUp fileSize (BitVec.ofNat 32 SectorSize)
  if (freeMap.numClear : Int) < numSectors.toInt then none
  else
    let n := numSectors.toInt.toNat
    some (⟨fileSize, numSectors,
        (freeMap.finds n).map (BitVec.ofInt 32) ++ old.dataSectors.drop n⟩,
      freeMap.afterFinds n)

/-- The loop of `Deallocate`. -/
def clearAll : List (BitVec 32) → BitMap → Option BitMap
  | [], freeMap => some freeMap
  | s :: ss, freeMap =>
    if s.toNat < freeMap.numBits ∧ freeMap.test s.toNat = true then
      clearAll ss (freeMap.clear s.toNat)
    else none

/-- `Deallocate`, unless an `ASSERT` fails. -/
def deallocate (h : FileHeader) (freeMap : BitMap) : Option BitMap :=
  clearAll (h.dataSectors.take h.numSectors.toInt.toNat) freeMap

/-- A header as `Allocate` makes it. -/
structure Valid (h : FileHeader) : Prop where
  length : h.dataSectors.length = NumDirect
  numBytes : h.numBytes.toNat ≤ MaxFileSize
  numSectors : h.numSectors.toNat = (h.numBytes.toNat + 511) / 512

/-- The sectors for a file of this size. -/
def needed (fileSize : BitVec 32) : ℕ := (fileSize.toNat + (SectorSize - 1)) / SectorSize

theorem toNat_numSectors_of (h : fileSize.toNat < 2 ^ 31) :
    (sdivRoundUp fileSize (BitVec.ofNat 32 SectorSize)).toNat = needed fileSize :=
  NoffHeader.toNat_sdivRoundUp h

theorem toInt_numSectors_of (h : fileSize.toNat < 2 ^ 31) :
    (sdivRoundUp fileSize (BitVec.ofNat 32 SectorSize)).toInt = needed fileSize := by
  have hnat := toNat_numSectors_of h
  have hlt : needed fileSize < 2 ^ 31 := by
    simp only [needed, SectorSize]
    omega
  rw [Word.toInt_of_lt (hnat.trans_lt hlt), hnat]

/-- `Allocate` compares with the free sectors and nothing else. -/
theorem allocate_eq (old : FileHeader) (m : BitMap) (h : fileSize.toNat < 2 ^ 31) :
    old.allocate m fileSize = if m.numClear < needed fileSize then none else
      some (⟨fileSize, sdivRoundUp fileSize (BitVec.ofNat 32 SectorSize),
          (m.finds (needed fileSize)).map (BitVec.ofInt 32) ++
            old.dataSectors.drop (needed fileSize)⟩, m.afterFinds (needed fileSize)) := by
  simp only [allocate, toInt_numSectors_of h, Int.toNat_natCast, Int.ofNat_lt]

theorem small_of_le (h : fileSize.toNat ≤ MaxFileSize) : fileSize.toNat < 2 ^ 31 :=
  h.trans_lt (by decide)

/-- `Allocate` fails only for lack of space. -/
theorem allocate_isSome_iff (old : FileHeader) (m : BitMap) (hs : fileSize.toNat < 2 ^ 31) :
    (old.allocate m fileSize).isSome = true ↔ needed fileSize ≤ m.numClear := by
  rw [allocate_eq old m hs]
  split
  · exact iff_of_false Bool.false_ne_true (by omega)
  · exact iff_of_true rfl (by omega)

theorem numBytes_allocate {old : FileHeader} {h : FileHeader} {m' : BitMap}
    (ha : old.allocate m fileSize = some (h, m')) : h.numBytes = fileSize := by
  simp only [allocate] at ha
  split at ha
  · cases ha
  · simp only [Option.some.injEq, Prod.mk.injEq] at ha
    rw [← ha.1]

/-- A file that fits gets sectors of its own, and no others are marked. -/
theorem allocate_spec {old : FileHeader} (ho : old.dataSectors.length = NumDirect)
    (hs : fileSize.toNat ≤ MaxFileSize) (hb : m.numBits = NumSectors)
    {h : FileHeader} {m' : BitMap} (ha : old.allocate m fileSize = some (h, m')) :
    h.Valid ∧ h.sectors.Nodup ∧ (∀ s ∈ h.sectors, s < NumSectors ∧ m.test s = false) ∧
    m'.numBits = NumSectors ∧ ∀ j, m'.test j = (decide (j ∈ h.sectors) || m.test j) := by
  have hsmall := small_of_le hs
  have hmax : needed fileSize ≤ NumDirect := by
    simp only [MaxFileSize, NumDirect, SectorSize] at hs
    simp only [needed, NumDirect, SectorSize]
    omega
  rw [allocate_eq old m hsmall] at ha
  split at ha
  · cases ha
  rename_i hclear
  simp only [Option.some.injEq, Prod.mk.injEq] at ha
  obtain ⟨rfl, rfl⟩ := ha
  obtain ⟨l, hfinds, hlen, hnodup, hmem, hbits, htest⟩ := BitMap.finds_spec (m := m)
    (n := needed fileSize) (by omega)
  have hsectors : FileHeader.sectors ⟨fileSize, sdivRoundUp fileSize (BitVec.ofNat 32 SectorSize),
      (m.finds (needed fileSize)).map (BitVec.ofInt 32) ++
        old.dataSectors.drop (needed fileSize)⟩ = l := by
    rw [sectors, toInt_numSectors_of hsmall, Int.toNat_natCast, List.take_left' (by simp), hfinds,
      List.map_map, List.map_map]
    refine (List.map_congr_left fun i hi => ?_).trans (List.map_id l)
    have := (hmem i hi).1
    simp only [hb, NumSectors] at this
    simp only [Function.comp_apply, BitVec.ofInt_natCast, BitVec.toNat_ofNat, id_eq]
    omega
  rw [hsectors]
  refine ⟨⟨?_, hs, toNat_numSectors_of hsmall⟩, hnodup, fun s hs => ?_, hbits.trans hb, htest⟩
  · simp only [List.length_append, List.length_map, BitMap.length_finds, List.length_drop, ho]
    omega
  · rw [← hb]
    exact hmem s hs

/-- A file of one sector gets the first that is free. -/
theorem allocate_first {old : FileHeader} (ho : old.dataSectors.length = NumDirect)
    (h0 : 0 < fileSize.toNat) (h1 : fileSize.toNat ≤ SectorSize)
    (hb : m.numBits = NumSectors) {i : ℕ} (hi : i < NumSectors) (hfree : m.test i = false)
    (hfirst : ∀ j < i, m.test j = true) : ∃ h, old.allocate m fileSize = some (h, m.mark i) ∧
      h.numBytes = fileSize ∧ h.Valid ∧ h.sectors = [i] ∧ (h.dataSectors.getD 0 0).toNat = i := by
  have hpos := BitMap.numClear_pos (hb.symm ▸ hi) hfree
  obtain ⟨k, -, hk, hmin, hfind⟩ := BitMap.find_spec hpos
  have hki : k = i := by
    rcases lt_trichotomy k i with hlt | heq | hgt
    · simp [hfirst k hlt] at hk
    · exact heq
    · simp [hmin i hgt] at hfree
  subst hki
  simp only [SectorSize] at h1
  have hnum : sdivRoundUp fileSize (BitVec.ofNat 32 SectorSize) = 1 := by
    have : (sdivRoundUp fileSize (BitVec.ofNat 32 SectorSize)).toNat =
        (fileSize.toNat + 511) / 512 := NoffHeader.toNat_sdivRoundUp (by omega)
    refine BitVec.eq_of_toNat_eq (this.trans ?_)
    show _ = 1
    omega
  have hsector : (BitVec.ofNat 32 k).toNat = k := by
    simp only [NumSectors] at hi
    rw [BitVec.toNat_ofNat]
    omega
  have hone : (1 : BitVec 32).toInt = 1 := by decide
  refine ⟨⟨fileSize, 1, BitVec.ofNat 32 k :: old.dataSectors.drop 1⟩, ?_, rfl,
    ⟨?_, ?_, ?_⟩, ?_, hsector⟩
  · simp only [allocate, hnum]
    rw [if_neg (by omega), hone]
    simp [BitMap.finds, BitMap.afterFinds, hfind]
  · simp only [List.length_cons, List.length_drop, ho, NumDirect]
  · simp only [MaxFileSize, NumDirect, SectorSize]
    omega
  · show 1 = (fileSize.toNat + 511) / 512
    omega
  · rw [sectors, hone]
    simp [hsector]

/-- Sectors that are marked can be freed. -/
theorem clearAll_spec {ss : List (BitVec 32)} (hn : (ss.map BitVec.toNat).Nodup)
    (hs : ∀ s ∈ ss, s.toNat < m.numBits ∧ m.test s.toNat = true) : ∃ m', clearAll ss m = some m' ∧
      m'.numBits = m.numBits ∧
      ∀ j, m'.test j = (decide (j ∉ ss.map BitVec.toNat) && m.test j) := by
  induction ss generalizing m with
  | nil => exact ⟨m, rfl, rfl, by simp⟩
  | cons s ss ih =>
    rw [List.map_cons, List.nodup_cons] at hn
    have hrest : ∀ s' ∈ ss, s'.toNat < (m.clear s.toNat).numBits ∧
        (m.clear s.toNat).test s'.toNat = true := by
      intro s' hs'
      obtain ⟨hlt, ht⟩ := hs s' (List.mem_cons_of_mem s hs')
      have hne : s'.toNat ≠ s.toNat := fun he => hn.1 (he ▸ List.mem_map_of_mem hs')
      exact ⟨hlt, by simp [BitMap.test_clear, ht, hne]⟩
    obtain ⟨m', hclear, hbits, htest⟩ := ih hn.2 hrest
    refine ⟨m', ?_, hbits, fun j => ?_⟩
    · rw [clearAll, if_pos (hs s List.mem_cons_self), hclear]
    · rw [htest j, BitMap.test_clear]
      by_cases hj : j = s.toNat <;> simp [hj]

end FileHeader

/-! ## Open files -/

namespace FileHeader

/-- The loop of `ReadAt` over the sectors of a file. -/
def readSectors (hdr : FileHeader) : List ℕ → Command Disk (List Byte)
  | [] => pure []
  | i :: is => do
    let s ← readSector (hdr.dataSectors.getD i 0)
    let rest ← readSectors hdr is
    pure (s.1 ++ rest)

/-- The loop of `WriteAt`: `buf` begins with the first of the sectors. -/
def writeSectors (hdr : FileHeader) : List ℕ → List Byte → Command Disk Unit
  | [], _ => pure ()
  | i :: is, buf => do
    writeSector (hdr.dataSectors.getD i 0) buf
    writeSectors hdr is (buf.drop SectorSize)

/-- How many bytes a request gets, if any. -/
def granted (hdr : FileHeader) (numBytes position : Int) : Int :=
  if numBytes ≤ 0 ∨ hdr.numBytes.toInt ≤ position then 0
  else if hdr.numBytes.toInt < position + numBytes then hdr.numBytes.toInt - position
  else numBytes

/-- The sectors of a request for at least one byte, `firstSector` to `lastSector`. -/
def sectorRange (position numBytes : ℕ) : List ℕ :=
  List.range' (position / SectorSize)
    (1 + (position + numBytes - 1) / SectorSize - position / SectorSize)

/-- `OpenFile::ReadAt`: the bytes stored, at a position that is not negative. -/
def readAt (hdr : FileHeader) (numBytes : Int) (position : ℕ) : Command Disk (List Byte) :=
  let n := (hdr.granted numBytes position).toNat
  if n = 0 then pure []
  else do
    let buf ← hdr.readSectors (sectorRange position n)
    pure ((buf.drop (position % SectorSize)).take n)

/-- What a sector has before it is written in part. -/
def oldSector (hdr : FileHeader) (partly : Bool) (sector : ℕ) : Command Disk (List Byte) :=
  if partly then hdr.readAt SectorSize (sector * SectorSize) else pure []

/-- `OpenFile::WriteAt`, with what the new buffer held before: the number of bytes. -/
def writeAt (hdr : FileHeader) (from' : List Byte) (numBytes : Int) (position : ℕ)
    (old : List Byte) : Command Disk ℕ :=
  let n := (hdr.granted numBytes position).toNat
  if n = 0 then pure 0
  else do
    let firstSector := position / SectorSize
    let lastSector := (position + n - 1) / SectorSize
    let firstAligned := position == firstSector * SectorSize
    let lastAligned := position + n == (lastSector + 1) * SectorSize
    let buf := overlay (List.replicate ((1 + lastSector - firstSector) * SectorSize) 0) 0
      (old.take ((1 + lastSector - firstSector) * SectorSize))
    let head ← hdr.oldSector (!firstAligned) firstSector
    let buf := overlay buf 0 head
    let tail ← hdr.oldSector (!lastAligned && (firstSector != lastSector || firstAligned)) lastSector
    let buf := overlay buf ((lastSector - firstSector) * SectorSize) tail
    let buf := overlay buf (position - firstSector * SectorSize) (from'.take n)
    hdr.writeSectors (sectorRange position n) buf
    pure n

/-- A file that is in one sector. -/
structure Small (hdr : FileHeader) (sector n : ℕ) : Prop where
  numBytes : hdr.numBytes.toInt = n
  pos : 0 < n
  le : n ≤ SectorSize
  first : (hdr.dataSectors.getD 0 0).toNat = sector
  lt : sector < NumSectors

variable {hdr : FileHeader} {sector n : ℕ} {d : Disk}

theorem Small.granted (hs : hdr.Small sector n) {k : Int} (hk : n ≤ k) :
    hdr.granted k (0 : ℕ) = n := by
  have := hs.pos
  simp only [FileHeader.granted, hs.numBytes]
  split
  · omega
  · split <;> omega

theorem Small.sectorRange (hs : hdr.Small sector n) : sectorRange 0 n = [0] := by
  have h1 := hs.pos
  have h2 := hs.le
  simp only [SectorSize] at h2
  simp only [FileHeader.sectorRange, SectorSize]
  rw [Nat.div_eq_of_lt (by omega : 0 + n - 1 < 512)]
  rfl

/-- Reading all of it, or more. -/
theorem Small.readAt (hs : hdr.Small sector n) {k : Int} (hk : n ≤ k) :
    hdr.readAt k 0 d = some ((d sector).1.take n, d) := by
  have hpos := hs.pos
  have hread : hdr.readSectors [0] d = some ((d sector).1, d) := by
    have hsector : readSector (hdr.dataSectors.getD 0 0) d = some (d sector, d) := by
      rw [readSector, hs.first, if_pos hs.lt]
    rw [readSectors, Command.bind_of_some hsector]
    simp [readSectors]
  simp only [FileHeader.readAt, hs.granted hk, Int.toNat_natCast]
  rw [if_neg (by omega), hs.sectorRange, Command.bind_of_some hread]
  simp

/-- Writing all of it. The rest of the sector is of no use. -/
theorem Small.writeAt (hs : hdr.Small sector n) {bs : List Byte} (hb : bs.length = n)
    (old : List Byte) : ∃ s : Sector, s.1.take n = bs ∧
      hdr.writeAt bs n 0 old d = some (n, Function.update d sector s) := by
  have hpos := hs.pos
  have hle := hs.le
  have hzero : 0 / SectorSize = 0 := Nat.zero_div _
  have hlast : (0 + n - 1) / SectorSize = 0 := by
    simp only [SectorSize] at hle ⊢
    omega
  have hwrite : ∀ buf, hdr.writeSectors [0] buf d =
      some ((), Function.update d sector (sectorOf buf)) := by
    intro buf
    have hsector : writeSector (hdr.dataSectors.getD 0 0) buf d =
        some ((), Function.update d sector (sectorOf buf)) := by
      rw [writeSector, hs.first, if_pos hs.lt]
    rw [writeSectors, Command.bind_of_some hsector]
    rfl
  have hold : ∀ p, ∃ bs, hdr.oldSector p 0 d = some (bs, d) := by
    intro p
    unfold oldSector
    split
    · rw [Nat.zero_mul, hs.readAt (by exact_mod_cast hle)]
      exact ⟨_, rfl⟩
    · exact ⟨_, rfl⟩
  simp only [FileHeader.writeAt, hs.granted le_rfl, Int.toNat_natCast]
  rw [if_neg (by omega)]
  simp only [hzero, hlast, hs.sectorRange]
  obtain ⟨head, hhead⟩ := hold (!0 == 0 * SectorSize)
  obtain ⟨tail, htail⟩ := hold (!(0 + n == (0 + 1) * SectorSize) && (0 != 0 || 0 == 0 * SectorSize))
  rw [Command.bind_of_some hhead, Command.bind_of_some htail, Command.bind_of_some (hwrite _)]
  refine ⟨_, ?_, rfl⟩
  have hbuf : ∀ buf, overlay buf (0 - 0 * SectorSize) (bs.take n) = bs ++ buf.drop n := by
    intro buf
    simp [overlay, List.take_of_length_le hb.le, hb]
  rw [hbuf, sectorOf_take (by simp [hb]) hle, List.take_left' hb]

end FileHeader

end Nachos.Filesys
