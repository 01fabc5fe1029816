import Nachos.Filesys.FileBytes

/-!
# Requests in machine words

`ReadAt` and `WriteAt` of `openfile.cc` with the `int`s of the machine. The sum that tests a
request for the end of the file is the only one that may overflow. Where it does not, a request
moves the bytes it was granted and no others.
-/
namespace Nachos.Filesys

open Bytes (Byte overlay)
open Command (stop)

variable {hdr : FileHeader} {d : Disk} {n p first : ℕ}

namespace FileHeader

/-- `FileLength`. -/
def fileLength (hdr : FileHeader) : BitVec 32 := hdr.numBytes

/-- `ByteToSector`. Past the end of `dataSectors` there is nothing to read. -/
def byteToSector (hdr : FileHeader) (offset : BitVec 32) : Command Disk (BitVec 32) :=
  match hdr.dataSectors[(offset.sdiv (BitVec.ofNat 32 SectorSize)).toNat]? with
  | some sector => pure sector
  | none => stop

end FileHeader

namespace OpenFile

/-- `SectorSize` as an `int`. -/
def sectorSize : BitVec 32 := BitVec.ofNat 32 SectorSize

def divRoundDown (n s : BitVec 32) : BitVec 32 := n.sdiv s

/-- The request check. -/
def refused (hdr : FileHeader) (numBytes position : BitVec 32) : Bool :=
  numBytes.sle 0 || hdr.fileLength.sle position

/-- `numBytes` after it was cut off at the end of the file. -/
def clipped (hdr : FileHeader) (numBytes position : BitVec 32) : BitVec 32 :=
  if hdr.fileLength.slt (position + numBytes) then hdr.fileLength - position else numBytes

/-- `new char[size]`, which throws at a negative size. -/
def newChar (size : BitVec 32) : Command Disk Unit := if size.slt 0 then stop else pure ()

/-- The loop of `ReadAt` from the sector `i` on. -/
def readLoop (hdr : FileHeader) (i : BitVec 32) : ℕ → Command Disk (List Byte)
  | 0 => pure []
  | n + 1 => do
    let sector ← hdr.byteToSector (i * sectorSize)
    let s ← readSector sector
    let rest ← readLoop hdr (i + 1) n
    pure (s.1 ++ rest)

/-- The loop of `WriteAt` from the sector `i` on, with which `buf` begins. -/
def writeLoop (hdr : FileHeader) (i : BitVec 32) : ℕ → List Byte → Command Disk Unit
  | 0, _ => pure ()
  | n + 1, buf => do
    let sector ← hdr.byteToSector (i * sectorSize)
    writeSector sector buf
    writeLoop hdr (i + 1) n (buf.drop SectorSize)

/-- `ReadAt`: the number of bytes, and the bytes. -/
def readAt (hdr : FileHeader) (numBytes position : BitVec 32) :
    Command Disk (BitVec 32 × List Byte) :=
  if refused hdr numBytes position then pure (0, [])
  else do
    let numBytes := clipped hdr numBytes position
    let firstSector := divRoundDown position sectorSize
    let lastSector := divRoundDown (position + numBytes - 1) sectorSize
    let numSectors := 1 + lastSector - firstSector
    newChar (numSectors * sectorSize)
    let buf ← readLoop hdr firstSector numSectors.toInt.toNat
    pure (numBytes,
      (buf.drop (position - firstSector * sectorSize).toNat).take numBytes.toNat)

/-- What a sector has before it is written in part. -/
def oldSector (hdr : FileHeader) (partly : Bool) (sector : BitVec 32) :
    Command Disk (List Byte) :=
  if partly then do
    let r ← readAt hdr sectorSize (sector * sectorSize)
    pure r.2
  else pure []

/-- `WriteAt`, with what the new buffer held before: the number of bytes. -/
def writeAt (hdr : FileHeader) (from' : List Byte) (numBytes position : BitVec 32)
    (old : List Byte) : Command Disk (BitVec 32) :=
  if refused hdr numBytes position then pure 0
  else do
    let numBytes := clipped hdr numBytes position
    let firstSector := divRoundDown position sectorSize
    let lastSector := divRoundDown (position + numBytes - 1) sectorSize
    let numSectors := 1 + lastSector - firstSector
    newChar (numSectors * sectorSize)
    let size := (numSectors * sectorSize).toNat
    let buf := overlay (List.replicate size 0) 0 (old.take size)
    let firstAligned := position == firstSector * sectorSize
    let lastAligned := position + numBytes == (lastSector + 1) * sectorSize
    let head ← oldSector hdr (!firstAligned) firstSector
    let buf := overlay buf 0 head
    let tail ← oldSector hdr (!lastAligned && (firstSector != lastSector || firstAligned)) lastSector
    let buf := overlay buf ((lastSector - firstSector) * sectorSize).toNat tail
    let buf := overlay buf (position - firstSector * sectorSize).toNat
      (from'.take numBytes.toNat)
    writeLoop hdr firstSector numSectors.toInt.toNat buf
    pure numBytes

/-- How many bytes a request moves. -/
def transferred (hdr : FileHeader) (numBytes position : BitVec 32) : ℕ :=
  if numBytes.toInt ≤ 0 ∨ hdr.numBytes.toNat ≤ position.toNat then 0
  else min numBytes.toNat (hdr.numBytes.toNat - position.toNat)

/-! ## No overflow -/

/-- Sectors that are distinct and in range leave no room for a large file. -/
theorem length_sectors_le (hnodup : hdr.sectors.Nodup) (hrange : ∀ s ∈ hdr.sectors, s < NumSectors) :
    hdr.sectors.length ≤ NumSectors := by
  have hsub : hdr.sectors ⊆ List.range NumSectors := fun s hs => List.mem_range.mpr (hrange s hs)
  have hle := (hnodup.subperm hsub).length_le
  rwa [List.length_range] at hle

theorem placed_of_covers (hnodup : hdr.sectors.Nodup)
    (hrange : ∀ s ∈ hdr.sectors, s < NumSectors)
    (hcovers : hdr.numBytes.toNat ≤ SectorSize * hdr.sectors.length) : hdr.Placed where
  small := by
    have hlength := length_sectors_le hnodup hrange
    simp only [SectorSize, NumSectors] at hcovers hlength
    omega
  covers := hcovers
  nodup := hnodup
  range := hrange

/-- A position in a file of sectors is far below the sign bit. -/
theorem size_bound (hp : hdr.Placed) : hdr.numBytes.toNat ≤ 2 ^ 19 ∧
    hdr.sectors.length ≤ 2 ^ 10 := by
  have hlength := length_sectors_le hp.nodup hp.range
  have hcovers := hp.covers
  simp only [SectorSize, NumSectors] at hcovers hlength
  omega

theorem byteToSector_spec (hi : first < hdr.sectors.length) (hlt : first < 2 ^ 20) :
    hdr.byteToSector (BitVec.ofNat 32 first * sectorSize) d =
      some (hdr.dataSectors.getD first 0, d) := by
  have hoffset : (BitVec.ofNat 32 first * sectorSize).sdiv (BitVec.ofNat 32 SectorSize) =
      BitVec.ofNat 32 first := by
    rw [sectorSize, ← BitVec.ofNat_mul,
      Word.sdiv_ofNat (by simp only [SectorSize]; omega) (by decide),
      Nat.mul_div_cancel _ (by decide)]
  have hdata : first < hdr.dataSectors.length := by
    rw [FileHeader.sectors, List.length_map, List.length_take] at hi
    omega
  rw [FileHeader.byteToSector, hoffset, Word.toNat_ofNat (by omega),
    List.getElem?_eq_getElem hdata, List.getD_eq_getElem _ _ hdata]
  rfl

theorem readLoop_eq (hle : first + n ≤ hdr.sectors.length) (hlt : first + n ≤ 2 ^ 20) :
    readLoop hdr (BitVec.ofNat 32 first) n d = hdr.readSectors (List.range' first n) d := by
  induction n generalizing first d with
  | zero => rfl
  | succ n ih =>
    have hnext : BitVec.ofNat 32 first + 1 = BitVec.ofNat 32 (first + 1) :=
      (BitVec.ofNat_add first 1).symm
    rw [readLoop, List.range'_succ, FileHeader.readSectors,
      Command.bind_of_some (byteToSector_spec (by omega) (by omega))]
    cases hread : readSector (hdr.dataSectors.getD first 0) d with
    | none => rw [Command.bind_of_none hread, Command.bind_of_none hread]
    | some r =>
      rw [Command.bind_of_some hread, Command.bind_of_some hread, hnext]
      have hrest := ih (d := r.2) (show first + 1 + n ≤ hdr.sectors.length by omega) (by omega)
      cases htail : hdr.readSectors (List.range' (first + 1) n) r.2 with
      | none =>
        rw [htail] at hrest
        rw [Command.bind_of_none hrest, Command.bind_of_none htail]
      | some t =>
        rw [htail] at hrest
        rw [Command.bind_of_some hrest, Command.bind_of_some htail]

theorem writeLoop_eq {buf : List Byte} (hle : first + n ≤ hdr.sectors.length)
    (hlt : first + n ≤ 2 ^ 20) : writeLoop hdr (BitVec.ofNat 32 first) n buf d =
      hdr.writeSectors (List.range' first n) buf d := by
  induction n generalizing first d buf with
  | zero => rfl
  | succ n ih =>
    have hnext : BitVec.ofNat 32 first + 1 = BitVec.ofNat 32 (first + 1) :=
      (BitVec.ofNat_add first 1).symm
    rw [writeLoop, List.range'_succ, FileHeader.writeSectors,
      Command.bind_of_some (byteToSector_spec (by omega) (by omega))]
    cases hwrite : writeSector (hdr.dataSectors.getD first 0) buf d with
    | none => rw [Command.bind_of_none hwrite, Command.bind_of_none hwrite]
    | some r =>
      rw [Command.bind_of_some hwrite, Command.bind_of_some hwrite, hnext]
      exact ih (by omega) (by omega)

/-- Without overflow the check grants what is left of the file. Behind the end it does not
come to the sum. -/
theorem request_cases (hp : hdr.Placed) {numBytes position : BitVec 32}
    (hpos : 0 ≤ position.toInt) (hsum : position.toNat < hdr.numBytes.toNat →
      position.toInt + numBytes.toInt < 2 ^ 31) :
    (refused hdr numBytes position = true ∧ transferred hdr numBytes position = 0) ∨
    (refused hdr numBytes position = false ∧ 0 < transferred hdr numBytes position ∧
      position.toNat + transferred hdr numBytes position ≤ hdr.numBytes.toNat ∧
      clipped hdr numBytes position = BitVec.ofNat 32 (transferred hdr numBytes position)) := by
  obtain ⟨hposition, hsmall⟩ := Word.toNat_of_nonneg hpos
  have hlength := hp.toInt_numBytes
  have hbound := (size_bound hp).1
  have hrefused : refused hdr numBytes position = true ↔
      numBytes.toInt ≤ 0 ∨ hdr.numBytes.toNat ≤ position.toNat := by
    simp only [refused, FileHeader.fileLength, Bool.or_eq_true, BitVec.sle_iff_toInt_le,
      BitVec.ofNat_eq_ofNat, BitVec.toInt_zero]
    omega
  by_cases hr : refused hdr numBytes position = true
  · exact .inl ⟨hr, if_pos (hrefused.mp hr)⟩
  · have hgranted := mt hrefused.mpr hr
    simp only [not_or, not_le] at hgranted
    obtain ⟨hpositive, hinside⟩ := hgranted
    have hsum := hsum hinside
    obtain ⟨hcount, hcountLt⟩ := Word.toNat_of_nonneg hpositive.le
    have hadd : (position + numBytes).toInt = position.toNat + numBytes.toNat := by
      have := Word.toInt_add_ofNat (x := position) (n := numBytes.toNat) hpos (by omega)
      rwa [Word.ofNat_toNat] at this
    have htransferred : transferred hdr numBytes position =
        min numBytes.toNat (hdr.numBytes.toNat - position.toNat) := if_neg (by omega)
    refine .inr ⟨by simpa using hr, by omega, by omega, ?_⟩
    rw [clipped, htransferred]
    split
    · rename_i hover
      rw [BitVec.slt_iff_toInt_lt, hadd, FileHeader.fileLength, hlength] at hover
      rw [Nat.min_eq_right (by omega), ← Word.ofNat_sub hdr.numBytes.isLt (by omega),
        Word.ofNat_toNat, Word.ofNat_toNat]
      rfl
    · rename_i hover
      rw [BitVec.slt_iff_toInt_lt, hadd, FileHeader.fileLength, hlength] at hover
      rw [Nat.min_eq_left (by omega), Word.ofNat_toNat]

/-! ## The arithmetic of a request -/

section

variable (hn : 0 < n) (hle : p + n ≤ 2 ^ 19)

include hn hle

theorem firstSector_eq : divRoundDown (BitVec.ofNat 32 p) sectorSize =
    BitVec.ofNat 32 (p / SectorSize) :=
  Word.sdiv_ofNat (by omega) (by decide)

theorem lastSector_eq :
    divRoundDown (BitVec.ofNat 32 p + BitVec.ofNat 32 n - 1) sectorSize =
      BitVec.ofNat 32 ((p + n - 1) / SectorSize) := by
  have hlast : BitVec.ofNat 32 p + BitVec.ofNat 32 n - 1 = BitVec.ofNat 32 (p + n - 1) := by
    rw [← BitVec.ofNat_add]
    exact Word.ofNat_sub (n := 1) (by omega) (by omega)
  rw [hlast]
  exact Word.sdiv_ofNat (by omega) (by decide)

theorem numSectors_eq : 1 + BitVec.ofNat 32 ((p + n - 1) / SectorSize) -
      BitVec.ofNat 32 (p / SectorSize) =
    BitVec.ofNat 32 (1 + (p + n - 1) / SectorSize - p / SectorSize) := by
  have hfl : p / SectorSize ≤ (p + n - 1) / SectorSize := Nat.div_le_div_right (by omega)
  have hl : (p + n - 1) / SectorSize ≤ p + n - 1 := Nat.div_le_self _ _
  rw [← Word.ofNat_sub (by omega) (by omega), BitVec.ofNat_add]
  rfl

omit hn in
theorem toNat_numSectors :
    (BitVec.ofNat 32 (1 + (p + n - 1) / SectorSize - p / SectorSize)).toInt.toNat =
      1 + (p + n - 1) / SectorSize - p / SectorSize := by
  have hl : (p + n - 1) / SectorSize ≤ p + n - 1 := Nat.div_le_self _ _
  generalize (p + n - 1) / SectorSize = last at hl
  generalize p / SectorSize = first
  rw [Word.toInt_ofNat (by omega), Int.toNat_natCast]

/-- Where a sector begins in the buffer. -/
theorem toNat_distance (hm : first * SectorSize ≤ p) :
    (BitVec.ofNat 32 p - BitVec.ofNat 32 first * sectorSize).toNat = p - first * SectorSize := by
  rw [sectorSize, ← BitVec.ofNat_mul, Word.ofNat_sub (by omega) hm, Word.toNat_ofNat (by omega)]

end

/-- What is granted lies in the sectors of the file. -/
theorem sectors_of_granted (hp : hdr.Placed) (hn : 0 < n) (hle : p + n ≤ hdr.numBytes.toNat) :
    p + n ≤ 2 ^ 19 ∧ p / SectorSize ≤ (p + n - 1) / SectorSize ∧
      (p + n - 1) / SectorSize < hdr.sectors.length := by
  have hbound := (size_bound hp).1
  have hcovers := hp.covers
  exact ⟨by omega, Nat.div_le_div_right (by omega), Nat.div_lt_of_lt_mul (by omega)⟩

theorem newChar_eq (hn : n ≤ 2 ^ 10) :
    newChar (BitVec.ofNat 32 n * sectorSize) d = some ((), d) := by
  have hsize : BitVec.ofNat 32 n * sectorSize = BitVec.ofNat 32 (n * SectorSize) :=
    (BitVec.ofNat_mul n SectorSize).symm
  have hneg : ¬(BitVec.ofNat 32 (n * SectorSize)).slt 0#32 = true := by
    rw [Word.slt_zero_iff, Word.toNat_ofNat (by simp only [SectorSize]; omega)]
    simp only [SectorSize]
    omega
  rw [newChar, hsize]
  exact congrFun (if_neg hneg) d

/-- `ReadAt` delivers the bytes it was granted. -/
theorem readAt_spec (hp : hdr.Placed) {numBytes position : BitVec 32}
    (hpos : 0 ≤ position.toInt) (hsum : position.toNat < hdr.numBytes.toNat →
      position.toInt + numBytes.toInt < 2 ^ 31) :
    readAt hdr numBytes position d =
      some ((BitVec.ofNat 32 (transferred hdr numBytes position),
        ((hdr.bytes d).drop position.toNat).take (transferred hdr numBytes position)), d) := by
  rw [readAt]
  rcases request_cases hp hpos hsum with ⟨hr, hzero⟩ | ⟨hr, hn, hle, hclipped⟩
  · rw [if_pos hr, hzero]
    rfl
  · rw [if_neg (by simp [hr]), hclipped]
    generalize transferred hdr numBytes position = n at hn hle
    have hlength := (size_bound hp).2
    obtain ⟨hsize, hfl, hlast⟩ := sectors_of_granted hp hn hle
    have hlow := Nat.div_mul_le_self position.toNat SectorSize
    have hdistance := toNat_distance hn hsize hlow
    rw [← Word.ofNat_toNat position, Word.toNat_ofNat position.isLt, firstSector_eq hn hsize,
      lastSector_eq hn hsize, numSectors_eq hn hsize, toNat_numSectors hsize]
    have hsectors : position.toNat / SectorSize +
        (1 + (position.toNat + n - 1) / SectorSize - position.toNat / SectorSize) ≤
        hdr.sectors.length := by omega
    have hloop := (readLoop_eq (d := d) hsectors (by omega)).trans
      (hp.readSectors fun i => hp.sectorRange_lt hn hle)
    have hbuffer := (Nat.le_add_left _ _).trans (hsectors.trans hlength)
    rw [Command.bind_of_some (newChar_eq hbuffer), Command.bind_of_some hloop,
      Command.pure_apply, hdistance, Word.toNat_ofNat (by omega),
      ← hp.take_drop_range hn hle]
    have hmod : position.toNat - position.toNat / SectorSize * SectorSize =
        position.toNat % SectorSize := by
      have := Nat.div_add_mod' position.toNat SectorSize
      omega
    rw [hmod, FileHeader.sectorRange]

theorem oldSector_eq (hp : hdr.Placed) (partly : Bool) (hfirst : first ≤ 2 ^ 10) :
    oldSector hdr partly (BitVec.ofNat 32 first) d = hdr.oldSector partly first d := by
  rw [hp.oldSector]
  cases partly with
  | false => rfl
  | true =>
    have hposition : BitVec.ofNat 32 first * sectorSize = BitVec.ofNat 32 (first * SectorSize) :=
      (BitVec.ofNat_mul first SectorSize).symm
    have hsmall : first * SectorSize ≤ 2 ^ 19 := by
      simp only [SectorSize]
      omega
    have hint := Word.toInt_ofNat (n := first * SectorSize) (by omega)
    have hsize : sectorSize.toInt = 512 := by decide
    have hsum : (BitVec.ofNat 32 (first * SectorSize)).toInt + sectorSize.toInt < 2 ^ 31 := by omega
    have hread := readAt_spec (d := d) hp (by omega) fun _ => hsum
    rw [Word.toNat_ofNat (by omega)] at hread
    rw [oldSector, if_pos rfl, hposition, Command.bind_of_some hread, Command.pure_apply]
    have hlength := hp.length_bytes (d := d)
    have hnat : sectorSize.toNat = SectorSize := by decide
    have hcount : transferred hdr sectorSize (BitVec.ofNat 32 (first * SectorSize)) =
        min SectorSize (hdr.numBytes.toNat - first * SectorSize) := by
      rw [transferred, Word.toNat_ofNat (by omega), hsize, hnat]
      split <;> omega
    have htake : ((hdr.bytes d).drop (first * SectorSize)).take
          (min SectorSize (hdr.numBytes.toNat - first * SectorSize)) =
        ((hdr.bytes d).drop (first * SectorSize)).take SectorSize := by
      rw [List.take_eq_take_iff, List.length_drop, hlength]
      omega
    rw [hcount, htake]
    rfl

theorem granted_eq (hp : hdr.Placed) (numBytes position : BitVec 32) :
    (hdr.granted numBytes.toInt position.toNat).toNat = transferred hdr numBytes position := by
  have hcases := Word.toInt_toNat numBytes
  rw [hp.granted_spec, transferred]
  split <;> omega

/-- `WriteAt` computes what it would compute with integers. -/
theorem writeAt_eq (hp : hdr.Placed) {numBytes position : BitVec 32} {from' old : List Byte}
    (hpos : 0 ≤ position.toInt) (hsum : position.toInt + numBytes.toInt < 2 ^ 31) :
    writeAt hdr from' numBytes position old d =
      (hdr.writeAt from' numBytes.toInt position.toNat old d).map fun r =>
        (BitVec.ofNat 32 r.1, r.2) := by
  rw [writeAt, FileHeader.writeAt, granted_eq hp]
  rcases request_cases hp hpos fun _ => hsum with ⟨hr, hzero⟩ | ⟨hr, hn, hle, hclipped⟩
  · rw [if_pos hr, hzero]
    rfl
  · rw [if_neg (by simp [hr]), hclipped]
    generalize transferred hdr numBytes position = n at hn hle
    rw [if_neg (show ¬n = 0 by omega)]
    have hlength := (size_bound hp).2
    obtain ⟨hsize, hfl, hlast⟩ := sectors_of_granted hp hn hle
    have hlow := Nat.div_mul_le_self position.toNat SectorSize
    rw [← Word.ofNat_toNat position, Word.toNat_ofNat position.isLt, firstSector_eq hn hsize,
      lastSector_eq hn hsize, numSectors_eq hn hsize, toNat_numSectors hsize]
    generalize position.toNat = p at *
    generalize hf : p / SectorSize = first at *
    generalize hl : (p + n - 1) / SectorSize = last at *
    have hword : ∀ q, BitVec.ofNat 32 q * sectorSize = BitVec.ofNat 32 (q * SectorSize) :=
      fun q => (BitVec.ofNat_mul q SectorSize).symm
    have hsmall : ∀ q, q ≤ 2 ^ 10 → q * SectorSize ≤ 2 ^ 19 := by
      intro q hq
      simp only [SectorSize]
      omega
    have hcount : 1 + last - first ≤ 2 ^ 10 := by omega
    rw [Command.bind_of_some (newChar_eq hcount)]
    have hdist : BitVec.ofNat 32 last - BitVec.ofNat 32 first = BitVec.ofNat 32 (last - first) :=
      Word.ofNat_sub (by omega) hfl
    have hnext : BitVec.ofNat 32 last + 1 = BitVec.ofNat 32 (last + 1) :=
      (BitVec.ofNat_add last 1).symm
    have hend := (BitVec.ofNat_add (n := 32) p n).symm
    have h1 := hsmall first (by omega)
    have h2 := hsmall (last + 1) (by omega)
    have h3 := hsmall (1 + last - first) hcount
    have h4 := hsmall (last - first) (by omega)
    have hstart : BitVec.ofNat 32 p - BitVec.ofNat 32 (first * SectorSize) =
        BitVec.ofNat 32 (p - first * SectorSize) := Word.ofNat_sub (by omega) hlow
    rw [hdist, hnext, hend]
    simp only [hword]
    rw [hstart, Word.beq_ofNat (by omega) (by omega), Word.beq_ofNat (by omega) (by omega),
      Word.bne_ofNat (by omega) (by omega), Word.toNat_ofNat (by omega),
      Word.toNat_ofNat (n := (last - first) * SectorSize) (by omega),
      Word.toNat_ofNat (n := p - first * SectorSize) (by omega),
      Word.toNat_ofNat (n := n) (by omega)]
    have hhead := hp.oldSector (d := d) (!p == first * SectorSize) first
    have htail := hp.oldSector (d := d)
      (!p + n == (last + 1) * SectorSize && (first != last || p == first * SectorSize)) last
    rw [Command.bind_of_some ((oldSector_eq hp _ (by omega)).trans hhead),
      Command.bind_of_some ((oldSector_eq hp _ (by omega)).trans htail),
      Command.bind_of_some hhead, Command.bind_of_some htail]
    have hrange : FileHeader.sectorRange p n = List.range' first (1 + last - first) := by
      rw [FileHeader.sectorRange, hf, hl]
    rw [hrange]
    generalize overlay _ (p - first * SectorSize) (from'.take n) = buf
    have hloop : writeLoop hdr (BitVec.ofNat 32 first) (1 + last - first) buf d =
        hdr.writeSectors (List.range' first (1 + last - first)) buf d :=
      writeLoop_eq (by omega) (by omega)
    cases hwrite : hdr.writeSectors (List.range' first (1 + last - first)) buf d with
    | none => rw [Command.bind_of_none (hloop.trans hwrite), Command.bind_of_none hwrite]; rfl
    | some r =>
      rw [Command.bind_of_some (hloop.trans hwrite), Command.bind_of_some hwrite]
      rfl

/-- Where the sum overflows nothing is cut off, so that no answer is what is left. -/
theorem readAt_overflow (hp : hdr.Placed) {numBytes position : BitVec 32}
    (hpos : 0 ≤ position.toInt) (hinside : position.toNat < hdr.numBytes.toNat)
    (hsum : 2 ^ 31 ≤ position.toInt + numBytes.toInt) {k : BitVec 32} {bs : List Byte} {d' : Disk}
    (h : readAt hdr numBytes position d = some ((k, bs), d')) : k = numBytes := by
  obtain ⟨hposition, hsmall⟩ := Word.toNat_of_nonneg hpos
  have hlength := hp.toInt_numBytes
  have hbound := (size_bound hp).1
  have hcount := Word.toInt_toNat numBytes
  have hrefused : ¬refused hdr numBytes position = true := by
    simp only [refused, FileHeader.fileLength, Bool.or_eq_true, BitVec.sle_iff_toInt_le,
      BitVec.ofNat_eq_ofNat, BitVec.toInt_zero]
    omega
  have hclipped : clipped hdr numBytes position = numBytes := by
    have hwraps := Word.toInt_toNat (position + numBytes)
    rw [BitVec.toNat_add] at hwraps
    have hover : ¬hdr.fileLength.slt (position + numBytes) = true := by
      rw [BitVec.slt_iff_toInt_lt, FileHeader.fileLength, hlength]
      omega
    exact if_neg hover
  rw [readAt, if_neg hrefused, hclipped] at h
  obtain ⟨_, _, -, h⟩ := Command.bind_eq_some.mp h
  obtain ⟨_, _, -, h⟩ := Command.bind_eq_some.mp h
  simp only [Command.pure_apply, Option.some.injEq, Prod.mk.injEq] at h
  exact h.1.1.symm

/-- A request moves the bytes it was granted, and changes no sector that holds none of them. -/
theorem fileIO_exact (hnodup : hdr.sectors.Nodup) (hrange : ∀ s ∈ hdr.sectors, s < NumSectors)
    (hcovers : hdr.numBytes.toNat ≤ SectorSize * hdr.sectors.length)
    {numBytes position : BitVec 32} (hpos : 0 ≤ position.toInt)
    (hsum : position.toInt + numBytes.toInt < 2 ^ 31) {from' : List Byte}
    (hfrom : transferred hdr numBytes position ≤ from'.length) (old : List Byte) (d : Disk) :
    (∃ d', writeAt hdr from' numBytes position old d =
        some (BitVec.ofNat 32 (transferred hdr numBytes position), d') ∧
      hdr.bytes d' = overlay (hdr.bytes d) position.toNat
        (from'.take (transferred hdr numBytes position)) ∧
      (∀ s ∉ hdr.sectors, d' s = d s) ∧
      ∀ s, (∀ x, position.toNat ≤ x → x < position.toNat + transferred hdr numBytes position →
        s ≠ hdr.sectors.getD (x / SectorSize) 0) → d' s = d s) ∧
    readAt hdr numBytes position d =
      some ((BitVec.ofNat 32 (transferred hdr numBytes position),
        ((hdr.bytes d).drop position.toNat).take (transferred hdr numBytes position)), d) := by
  have hp := placed_of_covers hnodup hrange hcovers
  refine ⟨?_, readAt_spec hp hpos fun _ => hsum⟩
  have hcount : min numBytes.toInt.toNat (hdr.numBytes.toNat - position.toNat) =
      transferred hdr numBytes position := by
    rw [← hp.granted_spec, granted_eq hp]
  obtain ⟨d', hrun, hbytes, htouched⟩ := hp.writeAt_touched (d := d) numBytes.toInt position.toNat
    (hcount.trans_le hfrom) old
  rw [hcount] at hrun hbytes htouched
  refine ⟨d', ?_, hbytes, ?_, htouched⟩
  · rw [writeAt_eq hp hpos hsum, hrun]
    rfl
  · intro s hs
    apply htouched
    intro x hx hlt heq
    have hinside : x < hdr.numBytes.toNat := by omega
    have hin : x / SectorSize < hdr.sectors.length := Nat.div_lt_of_lt_mul (by omega)
    rw [List.getD_eq_getElem _ _ hin] at heq
    exact hs (heq ▸ List.getElem_mem hin)

/-- A file over two sectors. -/
def splitHeader : FileHeader := ⟨600, 2, [7, 5]⟩

/-- Four bytes, two in either sector. -/
theorem fileIO_exact_split :
    (∃ d', writeAt splitHeader [1, 2, 3, 4] 4 510 [] (fun _ => sectorOf []) = some (4, d') ∧
      splitHeader.bytes d' = overlay (splitHeader.bytes fun _ => sectorOf []) 510 [1, 2, 3, 4] ∧
      (∀ s ∉ splitHeader.sectors, d' s = sectorOf []) ∧
      ∀ s, (∀ x, 510 ≤ x → x < 514 → s ≠ splitHeader.sectors.getD (x / SectorSize) 0) →
        d' s = sectorOf []) ∧
    readAt splitHeader 4 510 (fun _ => sectorOf []) =
      some ((4, ((splitHeader.bytes fun _ => sectorOf []).drop 510).take 4),
        fun _ => sectorOf []) := by
  have hcount : transferred splitHeader 4 510 = 4 := by decide
  have h := fileIO_exact (show splitHeader.sectors.Nodup by decide) (by decide) (by decide)
    (show 0 ≤ (510 : BitVec 32).toInt by decide)
    (show (510 : BitVec 32).toInt + (4 : BitVec 32).toInt < 2 ^ 31 by decide)
    (show transferred splitHeader 4 510 ≤ [1, 2, 3, 4].length by decide) [] (fun _ => sectorOf [])
  rw [hcount] at h
  exact h

end OpenFile

end Nachos.Filesys
