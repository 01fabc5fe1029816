import Nachos.Filesys.OpenFile

/-!
# The bytes of a file on disk

`ReadAt` and `WriteAt` move whole sectors. Seen from above, a file is a list of bytes of
fixed length, of which they read or replace a stretch.
-/
namespace Nachos.Filesys

open Bytes (Byte overlay)

namespace FileHeader

variable {hdr : FileHeader} {d : Disk} {x i : ℕ}

/-- A file with a sector of its own for each of its bytes. -/
structure Placed (hdr : FileHeader) : Prop where
  small : hdr.numBytes.toNat < 2 ^ 31
  covers : hdr.numBytes.toNat ≤ SectorSize * hdr.sectors.length
  nodup : hdr.sectors.Nodup
  range : ∀ s ∈ hdr.sectors, s < NumSectors

/-- What is in a file. -/
def bytes (hdr : FileHeader) (d : Disk) : List Byte :=
  (hdr.sectors.flatMap fun s => (d s).1).take hdr.numBytes.toNat

/-- One byte, found by its sector. -/
def byteAt (hdr : FileHeader) (d : Disk) (x : ℕ) : Byte :=
  (d (hdr.sectors.getD (x / SectorSize) 0)).1.getD (x % SectorSize) 0

theorem length_fullSectors (hdr : FileHeader) (d : Disk) :
    (hdr.sectors.flatMap fun s => (d s).1).length = SectorSize * hdr.sectors.length := by
  rw [List.length_flatMap]
  simp [(d _).2, Nat.mul_comm]

theorem Placed.length_bytes (hp : hdr.Placed) : (hdr.bytes d).length = hdr.numBytes.toNat := by
  rw [bytes, List.length_take, length_fullSectors]
  exact Nat.min_eq_left hp.covers

theorem Placed.getD_bytes (hp : hdr.Placed) (hx : x < hdr.numBytes.toNat) :
    (hdr.bytes d).getD x 0 = hdr.byteAt d x := by
  have hcovers := hp.covers
  rw [bytes, List.getD_eq_getElem?_getD, List.getElem?_take_of_lt hx, ← List.getD_eq_getElem?_getD,
    Bytes.getD_flatMap 0 (fun s _ => (d s).2) (by omega)]
  rfl

theorem Placed.toInt_numBytes (hp : hdr.Placed) : hdr.numBytes.toInt = hdr.numBytes.toNat :=
  Word.toInt_of_lt hp.small

/-- The sector that a loop over the file goes to. -/
theorem toNat_dataSector (hi : i < hdr.sectors.length) :
    (hdr.dataSectors.getD i 0).toNat = hdr.sectors.getD i 0 := by
  have hi' := hi
  rw [sectors, List.length_map, List.length_take] at hi'
  simp only [sectors, List.getD_eq_getElem?_getD, List.getElem?_map,
    List.getElem?_take_of_lt (show i < hdr.numSectors.toInt.toNat by omega),
    List.getElem?_eq_getElem (show i < hdr.dataSectors.length by omega)]
  rfl

theorem Placed.sector_lt (hp : hdr.Placed) (hi : i < hdr.sectors.length) :
    hdr.sectors.getD i 0 < NumSectors := by
  rw [List.getD_eq_getElem _ _ hi]
  exact hp.range _ (List.getElem_mem hi)

/-- What a request is granted lies in the file. -/
theorem Placed.granted_spec (hp : hdr.Placed) (numBytes : Int) (position : ℕ) :
    (hdr.granted numBytes position).toNat =
      min numBytes.toNat (hdr.numBytes.toNat - position) := by
  simp only [granted, hp.toInt_numBytes]
  split
  · omega
  · split <;> omega

/-! ## Reading -/

theorem Placed.readSectors (hp : hdr.Placed) {is : List ℕ}
    (his : ∀ i ∈ is, i < hdr.sectors.length) : hdr.readSectors is d =
      some (is.flatMap fun i => (d (hdr.sectors.getD i 0)).1, d) := by
  induction is with
  | nil => rfl
  | cons i is ih =>
    have hi := his i List.mem_cons_self
    have hread : readSector (hdr.dataSectors.getD i 0) d = some (d (hdr.sectors.getD i 0), d) := by
      rw [readSector, toNat_dataSector hi, if_pos (hp.sector_lt hi)]
    rw [FileHeader.readSectors, Command.bind_of_some hread,
      Command.bind_of_some (ih fun j hj => his j (List.mem_cons_of_mem i hj))]
    rfl

theorem mem_sectorRange {position n : ℕ} (hn : 0 < n) : i ∈ sectorRange position n ↔
    position / SectorSize ≤ i ∧ i ≤ (position + n - 1) / SectorSize := by
  simp only [sectorRange, List.mem_range'_1, SectorSize]
  omega

/-- All sectors of a request are there. -/
theorem Placed.sectorRange_lt (hp : hdr.Placed) {position n : ℕ} (hn : 0 < n)
    (hle : position + n ≤ hdr.numBytes.toNat) (hi : i ∈ sectorRange position n) :
    i < hdr.sectors.length := by
  have hcovers := hp.covers
  have := ((mem_sectorRange hn).mp hi).2
  simp only [SectorSize] at this hcovers
  omega

/-- The part of these sectors that was asked for. -/
theorem Placed.take_drop_range (hp : hdr.Placed) {position n : ℕ} (hn : 0 < n)
    (hle : position + n ≤ hdr.numBytes.toNat) :
    (((sectorRange position n).flatMap fun i => (d (hdr.sectors.getD i 0)).1).drop
      (position % SectorSize)).take n = ((hdr.bytes d).drop position).take n := by
  have hlength := hp.length_bytes (d := d)
  have hpos : 0 < SectorSize := by decide
  have hcount : position % SectorSize + n ≤ SectorSize * (sectorRange position n).length := by
    simp only [sectorRange, List.length_range', SectorSize]
    omega
  have hchunks : ((sectorRange position n).flatMap fun i => (d (hdr.sectors.getD i 0)).1).length =
      SectorSize * (sectorRange position n).length := by
    rw [List.length_flatMap]
    simp [(d _).2, Nat.mul_comm]
  refine Bytes.ext_getD ?_ fun j hj => ?_
  · simp only [List.length_take, List.length_drop, hlength, hchunks]
    omega
  · have hjn : j < n := by
      rw [List.length_take] at hj
      omega
    rw [Bytes.getD_take_drop hjn, Bytes.getD_take_drop hjn, hp.getD_bytes (by omega),
      Bytes.getD_flatMap 0 (fun i _ => (d _).2) (by omega), byteAt]
    have hmod : (position % SectorSize + j) % SectorSize = (position + j) % SectorSize := by
      rw [Nat.mod_add_mod]
    have hdiv : (sectorRange position n).getD ((position % SectorSize + j) / SectorSize) 0 =
        (position + j) / SectorSize := by
      have hlt : (position % SectorSize + j) / SectorSize < (sectorRange position n).length :=
        Nat.div_lt_of_lt_mul (by omega)
      rw [List.getD_eq_getElem _ _ hlt]
      simp only [sectorRange, List.getElem_range', SectorSize]
      omega
    rw [hmod, hdiv]

/-- `ReadAt` copies a stretch of the file. -/
theorem Placed.readAt (hp : hdr.Placed) (numBytes : Int) (position : ℕ) :
    hdr.readAt numBytes position d =
      some (((hdr.bytes d).drop position).take numBytes.toNat, d) := by
  have hgranted := hp.granted_spec numBytes position
  generalize hn : (hdr.granted numBytes position).toNat = n at hgranted
  have hlength := hp.length_bytes (d := d)
  have hwhole : ((hdr.bytes d).drop position).take numBytes.toNat =
      ((hdr.bytes d).drop position).take n := by
    rw [List.take_eq_take_iff, List.length_drop, hlength]
    omega
  rw [FileHeader.readAt, hn, hwhole]
  split
  · rename_i hzero
    simp [hzero]
  · have hle : position + n ≤ hdr.numBytes.toNat := by omega
    rw [Command.bind_of_some (hp.readSectors fun i => hp.sectorRange_lt (by omega) hle),
      Command.pure_apply, hp.take_drop_range (by omega) hle]

/-! ## Writing -/

theorem getD_sectorOf {data : List Byte} {r : ℕ} (hr : r < SectorSize) :
    (sectorOf data).1.getD r 0 = data.getD r 0 := by
  simp only [sectorOf, List.getD_eq_getElem?_getD, List.getElem?_take_of_lt hr,
    List.getElem?_append]
  split
  · rfl
  · rw [List.getElem?_replicate_of_lt (by omega), List.getElem?_eq_none (by omega)]
    rfl

theorem Placed.sector_ne (hp : hdr.Placed) {j : ℕ} (hi : i < hdr.sectors.length)
    (hj : j < hdr.sectors.length) (hne : i ≠ j) :
    hdr.sectors.getD i 0 ≠ hdr.sectors.getD j 0 := by
  rw [List.getD_eq_getElem _ _ hi, List.getD_eq_getElem _ _ hj, ne_eq, hp.nodup.getElem_inj_iff]
  exact hne

/-- The loop of `WriteAt`, from the sector `first` on. -/
theorem Placed.writeSectors (hp : hdr.Placed) {first n : ℕ} (hle : first + n ≤ hdr.sectors.length)
    (buf : List Byte) : ∃ d', hdr.writeSectors (List.range' first n) buf d = some ((), d') ∧
      (∀ q < n, d' (hdr.sectors.getD (first + q) 0) = sectorOf (buf.drop (SectorSize * q))) ∧
      ∀ s, (∀ q < n, s ≠ hdr.sectors.getD (first + q) 0) → d' s = d s := by
  induction n generalizing first buf d with
  | zero => exact ⟨d, rfl, by simp, fun _ _ => rfl⟩
  | succ n ih =>
    have hi : first < hdr.sectors.length := by omega
    have hwrite : writeSector (hdr.dataSectors.getD first 0) buf d =
        some ((), Function.update d (hdr.sectors.getD first 0) (sectorOf buf)) := by
      rw [writeSector, toNat_dataSector hi, if_pos (hp.sector_lt hi)]
    have hle' : first + 1 + n ≤ hdr.sectors.length := by omega
    obtain ⟨d', hrun, hin, hout⟩ := ih
      (d := Function.update d (hdr.sectors.getD first 0) (sectorOf buf)) hle'
      (buf.drop SectorSize)
    refine ⟨d', ?_, fun q hq => ?_, fun s hs => ?_⟩
    · rw [List.range'_succ, FileHeader.writeSectors, Command.bind_of_some hwrite, hrun]
    · cases q with
      | zero =>
        rw [Nat.add_zero, hout, Function.update_self, Nat.mul_zero, List.drop_zero]
        exact fun q hq => hp.sector_ne hi (by omega) (by omega)
      | succ q =>
        have := hin q (by omega)
        rw [List.drop_drop] at this
        rw [show first + (q + 1) = first + 1 + q by omega, this, Nat.mul_succ, Nat.add_comm]
    · rw [hout s, Function.update_of_ne]
      · exact hs 0 (by omega)
      · intro q hq
        have := hs (q + 1) (by omega)
        rwa [show first + (q + 1) = first + 1 + q by omega] at this

/-- What the file has afterwards, byte by byte. -/
theorem Placed.byteAt_writeSectors (hp : hdr.Placed) {d' : Disk} {first n : ℕ} {buf : List Byte}
    (hle : first + n ≤ hdr.sectors.length)
    (hin : ∀ q < n, d' (hdr.sectors.getD (first + q) 0) = sectorOf (buf.drop (SectorSize * q)))
    (hout : ∀ s, (∀ q < n, s ≠ hdr.sectors.getD (first + q) 0) → d' s = d s)
    (hx : x / SectorSize < hdr.sectors.length) : hdr.byteAt d' x =
      if first ≤ x / SectorSize ∧ x / SectorSize < first + n then
        buf.getD (x - first * SectorSize) 0 else hdr.byteAt d x := by
  have hmod : x % SectorSize < SectorSize := Nat.mod_lt _ (by decide)
  split
  · rename_i hmem
    have := hin (x / SectorSize - first) (by omega)
    rw [Nat.add_sub_cancel' hmem.1] at this
    rw [byteAt, this, getD_sectorOf hmod, List.getD_eq_getElem?_getD, List.getElem?_drop,
      ← List.getD_eq_getElem?_getD]
    congr 1
    simp only [SectorSize] at hmem ⊢
    omega
  · rename_i hmem
    rw [byteAt, byteAt, hout]
    exact fun q hq => hp.sector_ne hx (by omega) (by omega)

/-- What is read before a sector is written in part. -/
theorem Placed.oldSector (hp : hdr.Placed) (p : Bool) (sector : ℕ) :
    hdr.oldSector p sector d = some (if p then
      ((hdr.bytes d).drop (sector * SectorSize)).take SectorSize else [], d) := by
  cases p with
  | true => exact hp.readAt SectorSize (sector * SectorSize)
  | false => rfl

/-- A byte of the file is in the old contents of its sector. -/
theorem Placed.getD_sector (hp : hdr.Placed) (hx : x < hdr.numBytes.toNat) {sector : ℕ}
    (hs : x / SectorSize = sector) :
    x - sector * SectorSize < (((hdr.bytes d).drop (sector * SectorSize)).take SectorSize).length ∧
    (((hdr.bytes d).drop (sector * SectorSize)).take SectorSize).getD
      (x - sector * SectorSize) 0 = hdr.byteAt d x := by
  have hlength := hp.length_bytes (d := d)
  have hlow : sector * SectorSize ≤ x := by
    rw [← hs]
    exact Nat.div_mul_le_self x SectorSize
  have hlt : x - sector * SectorSize < SectorSize := by
    simp only [SectorSize] at hs ⊢
    omega
  refine ⟨?_, ?_⟩
  · rw [List.length_take, List.length_drop, hlength]
    omega
  · rw [Bytes.getD_take_drop hlt, Nat.add_sub_cancel' hlow, hp.getD_bytes hx]

/-- The buffer before the new bytes are copied in. -/
def oldBuffer (hdr : FileHeader) (d : Disk) (position n : ℕ) (buf : List Byte) : List Byte :=
  let firstSector := position / SectorSize
  let lastSector := (position + n - 1) / SectorSize
  let firstAligned := position == firstSector * SectorSize
  let lastAligned := position + n == (lastSector + 1) * SectorSize
  overlay (overlay buf 0
    (if !firstAligned then ((hdr.bytes d).drop (firstSector * SectorSize)).take SectorSize else []))
    ((lastSector - firstSector) * SectorSize)
    (if !lastAligned && (firstSector != lastSector || firstAligned) then
      ((hdr.bytes d).drop (lastSector * SectorSize)).take SectorSize else [])

theorem length_oldBuffer {position n : ℕ} {buf : List Byte} (hn : 0 < n)
    (hbuf : buf.length = (1 + (position + n - 1) / SectorSize - position / SectorSize) * SectorSize) :
    (hdr.oldBuffer d position n buf).length = buf.length := by
  have hfl : position / SectorSize ≤ (position + n - 1) / SectorSize :=
    Nat.div_le_div_right (by omega)
  have hold : ∀ (p : Bool) (l : List Byte), (if p then l.take SectorSize else []).length ≤
      SectorSize := by
    intro p l
    split <;> simp
  have hroom : ((position + n - 1) / SectorSize - position / SectorSize) * SectorSize + SectorSize =
      buf.length := by
    rw [hbuf, ← Nat.succ_mul]
    congr 1
    omega
  have hhead := hold (!position == position / SectorSize * SectorSize)
    ((hdr.bytes d).drop (position / SectorSize * SectorSize))
  have htail := hold (!position + n == ((position + n - 1) / SectorSize + 1) * SectorSize &&
      (position / SectorSize != (position + n - 1) / SectorSize ||
        position == position / SectorSize * SectorSize))
    ((hdr.bytes d).drop ((position + n - 1) / SectorSize * SectorSize))
  have hinner : (overlay buf 0 (if (!position == position / SectorSize * SectorSize) = true then
      ((hdr.bytes d).drop (position / SectorSize * SectorSize)).take SectorSize else [])).length =
      buf.length := Bytes.length_overlay (by omega)
  rw [oldBuffer, Bytes.length_overlay, hinner]
  rw [hinner]
  omega

/-- Where an old byte comes from: the last sector, or the first one. -/
theorem old_cases {position n first last : ℕ} (hn : 0 < n) (hf : position / SectorSize = first)
    (hl : (position + n - 1) / SectorSize = last) (hfirst : first ≤ x / SectorSize)
    (hlast : x / SectorSize ≤ last) (hout : x < position ∨ position + n ≤ x) :
    (x / SectorSize = last ∧ position + n ≠ (last + 1) * SectorSize ∧
      (first ≠ last ∨ position = first * SectorSize)) ∨
    (x / SectorSize = first ∧ position ≠ first * SectorSize) := by
  simp only [SectorSize] at *
  rcases hout with hout | hout
  · exact .inr ⟨by omega, by omega⟩
  · by_cases hc : first ≠ last ∨ position = first * 512
    · exact .inl ⟨by omega, by omega, hc⟩
    · exact .inr ⟨by omega, by omega⟩

theorem sub_sectors {first last c : ℕ} (hle : first ≤ last) (hlow : last * c ≤ x) :
    (last - first) * c ≤ x - first * c ∧ x - first * c - (last - first) * c = x - last * c := by
  have := Nat.mul_le_mul_right c hle
  rw [Nat.sub_mul]
  omega

/-- It has the old bytes wherever new ones will not come. -/
theorem Placed.getD_oldBuffer (hp : hdr.Placed) {position n : ℕ} {buf : List Byte} (hn : 0 < n)
    (hbuf : buf.length = (1 + (position + n - 1) / SectorSize - position / SectorSize) * SectorSize)
    (hx : x < hdr.numBytes.toNat) (hfirst : position / SectorSize ≤ x / SectorSize)
    (hlast : x / SectorSize ≤ (position + n - 1) / SectorSize)
    (hout : x < position ∨ position + n ≤ x) :
    (hdr.oldBuffer d position n buf).getD (x - position / SectorSize * SectorSize) 0 =
      hdr.byteAt d x := by
  have hcases := old_cases hn rfl rfl hfirst hlast hout
  generalize hf : position / SectorSize = first at *
  generalize hl : (position + n - 1) / SectorSize = last at *
  have hroom : SectorSize ≤ buf.length := by
    simp only [hbuf, SectorSize]
    omega
  simp only [oldBuffer, hf, hl]
  generalize hhead : (if (!position == first * SectorSize) = true then
    ((hdr.bytes d).drop (first * SectorSize)).take SectorSize else []) = head
  generalize htail : (if (!position + n == (last + 1) * SectorSize &&
    (first != last || position == first * SectorSize)) = true then
      ((hdr.bytes d).drop (last * SectorSize)).take SectorSize else []) = tail
  have hheadLen : head.length ≤ SectorSize := by
    rw [← hhead]
    split <;> simp
  have hlen : (overlay buf 0 head).length = buf.length := Bytes.length_overlay (by omega)
  rw [Bytes.getD_overlay (by rw [hlen, hbuf]; exact Nat.mul_le_mul_right _ (by omega)),
    Bytes.getD_overlay (Nat.zero_le _)]
  rcases hcases with ⟨hsector, hlastAligned, hread⟩ | ⟨hsector, hfirstAligned⟩
  · obtain ⟨hlt, hget⟩ := hp.getD_sector (d := d) hx hsector
    rw [if_pos (by simpa [hlastAligned] using hread)] at htail
    subst htail
    have hlow : last * SectorSize ≤ x := by
      rw [← hsector]
      exact Nat.div_mul_le_self x SectorSize
    obtain ⟨hin, hsub⟩ := sub_sectors (hfirst.trans_eq hsector) hlow
    rw [if_pos ⟨hin, by omega⟩, hsub, hget]
  · obtain ⟨hlt, hget⟩ := hp.getD_sector (d := d) hx hsector
    rw [if_pos (by simpa using hfirstAligned)] at hhead
    subst hhead
    rw [if_neg, if_pos ⟨Nat.zero_le _, by omega⟩, Nat.sub_zero, hget]
    rintro ⟨h1, h2⟩
    -- a tail that reaches back to the first sector is not read
    have hfl : first = last := by
      simp only [SectorSize] at h1 hsector
      omega
    subst hfl
    rw [if_neg (by simp [hfirstAligned])] at htail
    subst htail
    rw [List.length_nil] at h2
    omega

/-- Byte by byte: the new bytes in their place, the old ones everywhere else. -/
theorem Placed.byteAt_written (hp : hdr.Placed) {d' : Disk} {position n : ℕ} {bs junk : List Byte}
    (hn : 0 < n) (hbs : bs.length = n)
    (hjunk : junk.length =
      (1 + (position + n - 1) / SectorSize - position / SectorSize) * SectorSize)
    (hbyte : ∀ x, x / SectorSize < hdr.sectors.length → hdr.byteAt d' x =
      if position / SectorSize ≤ x / SectorSize ∧ x / SectorSize <
          position / SectorSize + (1 + (position + n - 1) / SectorSize - position / SectorSize) then
        (overlay (hdr.oldBuffer d position n junk)
          (position - position / SectorSize * SectorSize) bs).getD
          (x - position / SectorSize * SectorSize) 0
      else hdr.byteAt d x)
    (hx : x < hdr.numBytes.toNat) : hdr.byteAt d' x =
      if position ≤ x ∧ x < position + n then bs.getD (x - position) 0 else hdr.byteAt d x := by
  have hcovers := hp.covers
  have hfl : position / SectorSize ≤ (position + n - 1) / SectorSize :=
    Nat.div_le_div_right (by omega)
  have hlow : position / SectorSize * SectorSize ≤ position := Nat.div_mul_le_self _ _
  have hstart : position - position / SectorSize * SectorSize ≤
      (hdr.oldBuffer d position n junk).length := by
    rw [length_oldBuffer hn hjunk, hjunk]
    simp only [SectorSize]
    omega
  rw [hbyte x (Nat.div_lt_of_lt_mul (by omega)), Bytes.getD_overlay hstart, hbs]
  by_cases hmem : position ≤ x ∧ x < position + n
  · have hsector : position / SectorSize ≤ x / SectorSize ∧
        x / SectorSize ≤ (position + n - 1) / SectorSize :=
      ⟨Nat.div_le_div_right hmem.1, Nat.div_le_div_right (by omega)⟩
    rw [if_pos hmem, if_pos ⟨hsector.1, by omega⟩, if_pos ⟨by omega, by omega⟩]
    congr 1
    omega
  · rw [if_neg hmem]
    split
    · rename_i hsector
      have hxlow : position / SectorSize * SectorSize ≤ x :=
        (Nat.le_div_iff_mul_le (by decide)).mp hsector.1
      rw [if_neg (by omega), hp.getD_oldBuffer hn hjunk hx hsector.1 (by omega) (by omega)]
    · rfl

/-- `WriteAt` replaces a stretch of the file and leaves all sectors alone that hold none of it. -/
theorem Placed.writeAt_touched (hp : hdr.Placed) (numBytes : Int) (position : ℕ)
    {from' : List Byte}
    (hfrom : min numBytes.toNat (hdr.numBytes.toNat - position) ≤ from'.length)
    (old : List Byte) : ∃ d', hdr.writeAt from' numBytes position old d =
        some (min numBytes.toNat (hdr.numBytes.toNat - position), d') ∧
      hdr.bytes d' = overlay (hdr.bytes d) position
        (from'.take (min numBytes.toNat (hdr.numBytes.toNat - position))) ∧
      ∀ s, (∀ x, position ≤ x →
        x < position + min numBytes.toNat (hdr.numBytes.toNat - position) →
        s ≠ hdr.sectors.getD (x / SectorSize) 0) → d' s = d s := by
  rw [FileHeader.writeAt, hp.granted_spec]
  generalize hgranted : min numBytes.toNat (hdr.numBytes.toNat - position) = n at *
  split
  · rename_i hzero
    subst hzero
    exact ⟨d, rfl, by rw [List.take_zero, Bytes.overlay_nil], fun _ _ => rfl⟩
  have hn : 0 < n := by omega
  have hle : position + n ≤ hdr.numBytes.toNat := by omega
  have hbs : (from'.take n).length = n := by rw [List.length_take, Nat.min_eq_left hfrom]
  have hcovers := hp.covers
  have hlast : (position + n - 1) / SectorSize < hdr.sectors.length :=
    Nat.div_lt_of_lt_mul (by omega)
  have hfl : position / SectorSize ≤ (position + n - 1) / SectorSize :=
    Nat.div_le_div_right (by omega)
  rw [Command.bind_of_some (hp.oldSector _ _), Command.bind_of_some (hp.oldSector _ _)]
  generalize hjunk : overlay (List.replicate ((1 + (position + n - 1) / SectorSize -
    position / SectorSize) * SectorSize) 0) 0 (old.take ((1 + (position + n - 1) / SectorSize -
    position / SectorSize) * SectorSize)) = junk
  have hlen : junk.length = (1 + (position + n - 1) / SectorSize - position / SectorSize) *
      SectorSize := by
    rw [← hjunk, Bytes.length_overlay (by simp), List.length_replicate]
  have hrange : position / SectorSize +
      (1 + (position + n - 1) / SectorSize - position / SectorSize) ≤ hdr.sectors.length := by
    omega
  obtain ⟨d', hrun, hin, hout⟩ := hp.writeSectors (d := d) hrange
    (overlay (hdr.oldBuffer d position n junk)
      (position - position / SectorSize * SectorSize) (from'.take n))
  refine ⟨d', (Command.bind_of_some hrun).trans rfl, ?_, ?_⟩
  · refine Bytes.ext_getD ?_ fun x hx => ?_
    · rw [Bytes.length_overlay, hp.length_bytes, hp.length_bytes]
      rw [hp.length_bytes, hbs]
      exact hle
    · rw [hp.length_bytes] at hx
      rw [hp.getD_bytes hx, hp.byteAt_written hn hbs hlen
        (fun x hx => hp.byteAt_writeSectors hrange hin hout hx) hx,
        Bytes.getD_overlay (by rw [hp.length_bytes]; omega), hbs, hp.getD_bytes hx]
  · intro s hs
    apply hout
    intro q hq
    -- the first byte of the request that is in this sector
    have hbyte := hs (max position ((position / SectorSize + q) * SectorSize))
      (Nat.le_max_left _ _)
    simp only [SectorSize] at hbyte hq hfl ⊢
    have hdiv : max position ((position / 512 + q) * 512) / 512 = position / 512 + q := by
      omega
    rw [hdiv] at hbyte
    apply hbyte
    omega

/-- In particular those of other files. -/
theorem Placed.writeAt (hp : hdr.Placed) (numBytes : Int) (position : ℕ) {from' : List Byte}
    (hfrom : min numBytes.toNat (hdr.numBytes.toNat - position) ≤ from'.length)
    (old : List Byte) : ∃ d', hdr.writeAt from' numBytes position old d =
        some (min numBytes.toNat (hdr.numBytes.toNat - position), d') ∧
      hdr.bytes d' = overlay (hdr.bytes d) position
        (from'.take (min numBytes.toNat (hdr.numBytes.toNat - position))) ∧
      ∀ s ∉ hdr.sectors, d' s = d s := by
  obtain ⟨d', hrun, hbytes, hother⟩ := hp.writeAt_touched (d := d) numBytes position hfrom old
  refine ⟨d', hrun, hbytes, fun s hs => hother s fun x hx hlt heq => hs ?_⟩
  have hcovers := hp.covers
  have hin : x / SectorSize < hdr.sectors.length := Nat.div_lt_of_lt_mul (by omega)
  rw [heq, List.getD_eq_getElem _ _ hin]
  exact List.getElem_mem _

end FileHeader

end Nachos.Filesys
