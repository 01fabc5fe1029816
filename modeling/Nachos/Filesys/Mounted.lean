import Nachos.Filesys.FileBytes
import Nachos.Filesys.FileSystem
import Nachos.Lib.Ledger

/-!
# A mounted file system

The bitmap and the directory of a disk agree with the headers on it, wherever the sectors of
their own two files are. What `Create`, `Remove` and `Open` do to such a disk.
-/
namespace Nachos.Filesys

open Bytes (Byte)

variable {d d' : Disk} {fs : FileSystem} {u : Uninitialized} {dir : Directory} {m map : BitMap}
  {e : DirectoryEntry} {hdr file : FileHeader} {name : List Byte}

/-- The file header in a sector. -/
def headerAt (d : Disk) (sector : ℕ) : FileHeader := FileHeader.decode (d sector).1

/-- The sectors of a directory entry: its header and its data. -/
def owned (d : Disk) (e : DirectoryEntry) : List ℕ :=
  if e.inUse then e.sector.toNat :: (headerAt d e.sector.toNat).sectors else []

/-- All sectors that are in use. -/
def used (d : Disk) (dir : Directory) : List ℕ :=
  [FreeMapSector.toNat, DirectorySector.toNat] ++ (headerAt d FreeMapSector.toNat).sectors ++
    (headerAt d DirectorySector.toNat).sectors ++ dir.flatMap (owned d)

/-- The bitmap and the directory agree with the headers. -/
structure Consistent (d : Disk) (map : BitMap) (dir : Directory) : Prop where
  exact : Ledger.Exact NumSectors map.test (used d dir)
  freeMapHeader : (headerAt d FreeMapSector.toNat).Valid
  directoryHeader : (headerAt d DirectorySector.toNat).Valid
  headers : ∀ e ∈ dir, e.inUse = true → (headerAt d e.sector.toNat).Valid

/-- The bitmap in its file. -/
def mapOn (fs : FileSystem) (d : Disk) : BitMap := .ofBytes NumSectors (fs.freeMapFile.bytes d)

/-- The directory in its file. -/
def directoryOn (fs : FileSystem) (d : Disk) : Directory := .decode (fs.directoryFile.bytes d)

/-- The disk is consistent, and the open files of the file system are those on it. -/
structure Mounted (fs : FileSystem) (d : Disk) : Prop where
  freeMapFile : headerAt d FreeMapSector.toNat = fs.freeMapFile
  directoryFile : headerAt d DirectorySector.toNat = fs.directoryFile
  mapSize : fs.freeMapFile.numBytes = FreeMapFileSize
  dirSize : fs.directoryFile.numBytes = DirectoryFileSize
  consistent : Consistent d (mapOn fs d) (directoryOn fs d)

/-! ## Headers -/

theorem FileHeader.Valid.length_sectors (hv : hdr.Valid) :
    hdr.sectors.length = (hdr.numBytes.toNat + 511) / 512 := by
  have hlength := hv.length
  have hbytes := hv.numBytes
  have hnum := hv.numSectors
  simp only [MaxFileSize, NumDirect, SectorSize] at hlength hbytes
  have hint := Word.toInt_of_lt (x := hdr.numSectors) (by omega)
  rw [FileHeader.sectors, List.length_map, List.length_take, hint]
  omega

theorem FileHeader.Valid.placed (hv : hdr.Valid) (hnodup : hdr.sectors.Nodup)
    (hrange : ∀ s ∈ hdr.sectors, s < NumSectors) : hdr.Placed where
  small := by
    have hbytes := hv.numBytes
    simp only [MaxFileSize, NumDirect, SectorSize] at hbytes
    omega
  covers := by
    rw [hv.length_sectors, SectorSize]
    omega
  nodup := hnodup
  range := hrange

theorem FileHeader.bytes_congr (h : ∀ s ∈ hdr.sectors, d' s = d s) :
    hdr.bytes d' = hdr.bytes d := by
  have hflat : (hdr.sectors.flatMap fun s => (d' s).1) = hdr.sectors.flatMap fun s => (d s).1 :=
    List.flatMap_congr fun s hs => by rw [h s hs]
  rw [FileHeader.bytes, FileHeader.bytes, hflat]

theorem toNat_sector {s : ℕ} (hs : s < NumSectors) : (BitVec.ofNat 32 s).toNat = s :=
  Word.toNat_ofNat (by simp only [NumSectors] at hs; omega)

theorem fetchFrom_spec {sector : BitVec 32} (hs : sector.toNat < NumSectors) :
    FileHeader.fetchFrom sector d = some (headerAt d sector.toNat, d) := by
  have hread : readSector sector d = some (d sector.toNat, d) := if_pos hs
  rw [FileHeader.fetchFrom, Command.bind_of_some hread]
  rfl

theorem writeBack_spec {hdr : FileHeader} {sector : BitVec 32} (hs : sector.toNat < NumSectors) :
    hdr.writeBack sector d =
      some ((), Function.update d sector.toNat (sectorOf hdr.encode)) := if_pos hs

/-- A header is read as it was written. -/
theorem headerAt_update {hdr : FileHeader} (hv : hdr.Valid) (s : ℕ) :
    headerAt (Function.update d s (sectorOf hdr.encode)) s = hdr := by
  rw [headerAt, Function.update_self, sectorOf_eq (FileHeader.length_encode hv.length),
    FileHeader.decode_encode hv.length]

/-- Sectors that are not the header of an entry do not matter for it. -/
theorem owned_congr (h : e.inUse = true → d' e.sector.toNat = d e.sector.toNat) :
    owned d' e = owned d e := by
  unfold owned
  split
  · rw [headerAt, headerAt, h (by assumption)]
  · rfl

theorem owned_subset (he : e ∈ dir) : owned d e ⊆ dir.flatMap (owned d) :=
  fun _ hs => List.mem_flatMap.mpr ⟨e, he, hs⟩

/-! ## The two files of the file system -/

theorem writeMap_on (hp : file.Placed) (hsize : file.numBytes = FreeMapFileSize)
    (hb : map.numBits = NumSectors) (old : List Byte) :
    ∃ d', writeMap map file old d = some (128, d') ∧
      (∀ i < NumSectors, (BitMap.ofBytes NumSectors (file.bytes d')).test i = map.test i) ∧
      ∀ s ∉ file.sectors, d' s = d s := by
  have hwords : map.numWords = 32 := by rw [BitMap.numWords, hb]; rfl
  have hlen : map.bytes.length = 128 := by rw [BitMap.length_bytes, hwords]
  have hcount : min ((4 * map.numWords : ℕ) : Int).toNat (file.numBytes.toNat - 0) = 128 := by
    rw [hwords, hsize]
    rfl
  have hfrom : min ((4 * map.numWords : ℕ) : Int).toNat (file.numBytes.toNat - 0) ≤
      map.bytes.length := by rw [hcount, hlen]
  obtain ⟨d', hrun, hbytes, hother⟩ := hp.writeAt (d := d) (4 * map.numWords : ℕ) 0 hfrom old
  have hlength : (file.bytes d).length = 128 := by
    rw [hp.length_bytes, hsize]
    rfl
  rw [hcount] at hrun hbytes
  refine ⟨d', hrun, ?_, hother⟩
  intro i hi
  have htest : (BitMap.ofBytes map.numBits (map.bytes ++ [])).test i = map.test i :=
    BitMap.test_ofBytes (hb ▸ hi)
  rw [hbytes, List.take_of_length_le hlen.le, Bytes.overlay_zero,
    List.drop_of_length_le (by omega), ← hb]
  exact htest

theorem writeDirectory_on (hp : file.Placed) (hsize : file.numBytes = DirectoryFileSize)
    (hd : dir.Valid) (old : List Byte) :
    ∃ d', dir.writeBack file old d = some (200, d') ∧ Directory.decode (file.bytes d') = dir ∧
      ∀ s ∉ file.sectors, d' s = d s := by
  have hlen : dir.encode.length = 200 := by
    rw [Directory.length_encode hd.full, hd.length]
    rfl
  have hcount : min ((entrySize * NumDirEntries : ℕ) : Int).toNat (file.numBytes.toNat - 0) =
      200 := by
    rw [hsize]
    rfl
  have hfrom : min ((entrySize * NumDirEntries : ℕ) : Int).toNat (file.numBytes.toNat - 0) ≤
      dir.encode.length := by rw [hcount, hlen]
  obtain ⟨d', hrun, hbytes, hother⟩ :=
    hp.writeAt (d := d) (entrySize * NumDirEntries : ℕ) 0 hfrom old
  have hlength : (file.bytes d).length = 200 := by
    rw [hp.length_bytes, hsize]
    rfl
  rw [hcount] at hrun hbytes
  refine ⟨d', hrun, ?_, hother⟩
  rw [hbytes, List.take_of_length_le hlen.le, Bytes.overlay_zero,
    List.drop_of_length_le (by omega), List.append_nil, Directory.decode_encode hd]

/-- The two files of the file system are in order, whatever the other headers are. -/
structure Served (fs : FileSystem) (d : Disk) : Prop where
  placed_map : fs.freeMapFile.Placed
  placed_directory : fs.directoryFile.Placed
  mapSize : fs.freeMapFile.numBytes = FreeMapFileSize
  dirSize : fs.directoryFile.numBytes = DirectoryFileSize
  apart : ∀ s ∈ fs.directoryFile.sectors, s ∉ fs.freeMapFile.sectors
  marked : ∀ s, s ∈ fs.freeMapFile.sectors ∨ s ∈ fs.directoryFile.sectors →
    (mapOn fs d).test s = true

namespace Served

variable (h : Served fs d)

include h

theorem fetchMap : fetchMap fs.freeMapFile d = some (mapOn fs d, d) := by
  have hlength : (fs.freeMapFile.bytes d).length = 128 := by
    rw [h.placed_map.length_bytes, h.mapSize]
    rfl
  rw [Filesys.fetchMap, Command.bind_of_some (h.placed_map.readAt _ _), List.drop_zero,
    List.take_of_length_le (hlength.trans_le (by decide))]
  rfl

theorem fetchDirectory : Directory.fetchFrom fs.directoryFile d = some (directoryOn fs d, d) := by
  have hlength : (fs.directoryFile.bytes d).length = 200 := by
    rw [h.placed_directory.length_bytes, h.dirSize]
    rfl
  rw [Directory.fetchFrom, Command.bind_of_some (h.placed_directory.readAt _ _), List.drop_zero,
    List.take_of_length_le (hlength.trans_le (by decide))]
  rfl

theorem valid_directory : (directoryOn fs d).Valid := by
  apply Directory.valid_decode
  rw [h.placed_directory.length_bytes, h.dirSize]
  rfl

/-- A free sector is in neither of the two files. -/
theorem not_mem_files {s : ℕ} (hfree : (mapOn fs d).test s = false) :
    s ∉ fs.freeMapFile.sectors ∧ s ∉ fs.directoryFile.sectors := by
  constructor
  · intro hmem
    rw [h.marked s (.inl hmem)] at hfree
    cases hfree
  · intro hmem
    rw [h.marked s (.inr hmem)] at hfree
    cases hfree

/-- `Create` when everything worked: a header of any size, a directory and a bitmap. -/
theorem createIn_run {s : BitVec 32} (hs : s.toNat < NumSectors)
    (hfree : (mapOn fs d).test s.toNat = false) (hdir : dir.Valid) {initialSize : BitVec 32}
    (ha : (FileHeader.decode u.hdr).allocate m initialSize = some (hdr, map))
    (hbits : map.numBits = NumSectors) :
    ∃ d', fs.createIn u dir m s initialSize d = some (true, d') ∧
      d' s.toNat = sectorOf hdr.encode ∧ directoryOn fs d' = dir ∧
      (∀ j < NumSectors, (mapOn fs d').test j = map.test j) ∧
      ∀ x ∉ fs.freeMapFile.sectors, x ∉ fs.directoryFile.sectors → x ≠ s.toNat → d' x = d x := by
  obtain ⟨hnotMap, hnotDir⟩ := h.not_mem_files hfree
  -- header, directory, bitmap
  obtain ⟨d₂, hw₂, hdir₂, hother₂⟩ := writeDirectory_on
    (d := Function.update d s.toNat (sectorOf hdr.encode)) h.placed_directory h.dirSize hdir u.buf
  obtain ⟨d₃, hw₃, hmap₃, hother₃⟩ := writeMap_on (d := d₂) h.placed_map h.mapSize hbits u.buf'
  refine ⟨d₃, ?_, ?_, ?_, hmap₃, ?_⟩
  · rw [FileSystem.createIn, ha]
    exact (Command.bind_of_some (writeBack_spec hs)).trans ((Command.bind_of_some hw₂).trans
      (Command.bind_of_some hw₃))
  · rw [hother₃ _ hnotMap, hother₂ _ hnotDir, Function.update_self]
  · rw [directoryOn, FileHeader.bytes_congr fun s hs => hother₃ s (h.apart s hs)]
    exact hdir₂
  · intro x hxm hxd hne
    rw [hother₃ x hxm, hother₂ x hxd, Function.update_of_ne hne]

end Served

namespace FileSystem

/-- `Create` up to its call of `Allocate`: the new directory, the bitmap and the sector. -/
def prepared (directory : Directory) (freeMap : BitMap) (name : List Byte) :
    Option (Directory × BitMap × BitVec 32) :=
  if directory.find name ≠ -1 then none
  else if freeMap.find.1 = -1 then none
  else (directory.add name (BitVec.ofInt 32 freeMap.find.1)).map fun directory =>
    (directory, freeMap.find.2, BitVec.ofInt 32 freeMap.find.1)

theorem prepared_cases (dir : Directory) (m : BitMap) (name : List Byte) :
    (prepared dir m name = none ∧
      (dir.Has name ∨ (∀ e ∈ dir, e.inUse = true) ∨ m.numClear = 0)) ∨
    ∃ s i, ∃ hi : i < dir.length, s < m.numBits ∧ m.test s = false ∧
      m.find = ((s : Int), m.mark s) ∧ ¬dir.Has name ∧ dir[i].inUse = false ∧
      prepared dir m name =
        some (dir.modify i (Directory.added name (BitVec.ofNat 32 s)), m.mark s, BitVec.ofNat 32 s) := by
  rw [prepared]
  split
  · rename_i hfound
    refine .inl ⟨rfl, .inl ?_⟩
    by_contra hnot
    exact hfound (Directory.find_of_not_has hnot)
  split
  · rename_i hfull
    exact .inl ⟨rfl, .inr (.inr ((BitMap.find_eq_neg_one_iff m).mp hfull))⟩
  rename_i hfind
  obtain ⟨s, hs, hfree, -, heq⟩ := BitMap.find_of_ne hfind
  rw [heq, BitVec.ofInt_natCast]
  cases hadd : dir.add name (BitVec.ofNat 32 s) with
  | none =>
    refine .inl ⟨rfl, ?_⟩
    exact (Directory.add_eq_none_iff.mp hadd).imp id .inl
  | some dir' =>
    have hnew : ¬dir.Has name := by
      intro hhas
      rw [Directory.add_eq_none_iff.mpr (.inl hhas)] at hadd
      cases hadd
    obtain ⟨i, hi, hunused, rfl⟩ := Directory.add_eq_some hadd
    exact .inr ⟨s, i, hi, hs, hfree, rfl, hnew, hunused, rfl⟩

end FileSystem

/-- What `Create` needs: a new name, a free entry, and sectors for the header and the data. -/
structure HasRoom (fs : FileSystem) (d : Disk) (name : List Byte) (initialSize : BitVec 32) :
    Prop where
  new : ¬(directoryOn fs d).Has name
  entry : ∃ e ∈ directoryOn fs d, e.inUse = false
  sectors : 1 + (initialSize.toNat + (SectorSize - 1)) / SectorSize ≤ (mapOn fs d).numClear

namespace Served

theorem create_eq (h : Served fs d) (u : Uninitialized) (name : List Byte)
    (initialSize : BitVec 32) : fs.create u name initialSize d =
      match FileSystem.prepared (directoryOn fs d) (mapOn fs d) name with
      | none => some (false, d)
      | some (directory, freeMap, sector) =>
        fs.createIn u directory freeMap sector initialSize d := by
  rw [FileSystem.create, Command.bind_of_some h.fetchDirectory, FileSystem.prepared]
  by_cases hfound : (directoryOn fs d).find name ≠ -1
  · rw [if_pos hfound, if_pos hfound]
    rfl
  rw [if_neg hfound, if_neg hfound, Command.bind_of_some h.fetchMap]
  by_cases hfull : (mapOn fs d).find.1 = -1
  · rw [if_pos hfull, if_pos hfull]
    rfl
  rw [if_neg hfull, if_neg hfull]
  cases (directoryOn fs d).add name (BitVec.ofInt 32 (mapOn fs d).find.1) <;> rfl

/-- Without room `Create` gives up. Otherwise it comes to the end. -/
theorem create_branches (h : Served fs d) (u : Uninitialized) (name : List Byte)
    {initialSize : BitVec 32} (hsize : initialSize.toNat < 2 ^ 31) :
    (¬HasRoom fs d name initialSize ∧ fs.create u name initialSize d = some (false, d)) ∨
    (HasRoom fs d name initialSize ∧ ∃ s i, ∃ hi : i < (directoryOn fs d).length, ∃ hdr map,
      s < NumSectors ∧ (mapOn fs d).test s = false ∧
      (mapOn fs d).find = ((s : Int), (mapOn fs d).mark s) ∧ (directoryOn fs d)[i].inUse = false ∧
      FileSystem.prepared (directoryOn fs d) (mapOn fs d) name =
        some ((directoryOn fs d).modify i (Directory.added name (BitVec.ofNat 32 s)),
          (mapOn fs d).mark s, BitVec.ofNat 32 s) ∧
      (FileHeader.decode u.hdr).allocate ((mapOn fs d).mark s) initialSize = some (hdr, map) ∧
      fs.create u name initialSize d =
        fs.createIn u ((directoryOn fs d).modify i (Directory.added name (BitVec.ofNat 32 s)))
          ((mapOn fs d).mark s) (BitVec.ofNat 32 s) initialSize d) := by
  have hcreate := h.create_eq u name initialSize
  rcases FileSystem.prepared_cases (directoryOn fs d) (mapOn fs d) name with ⟨hnone, hlack⟩ |
    ⟨s, i, hi, hs, hfree, hfind, hnew, hunused, hsome⟩
  · rw [hnone] at hcreate
    refine .inl ⟨fun hr => ?_, hcreate⟩
    rcases hlack with hhas | hused | hzero
    · exact hr.new hhas
    · obtain ⟨e, he, hunused⟩ := hr.entry
      rw [hused e he] at hunused
      cases hunused
    · have := hr.sectors
      simp only [hzero, SectorSize] at this
      omega
  · rw [hsome] at hcreate
    have hclear := BitMap.numClear_mark hs hfree
    have hiff := FileHeader.allocate_isSome_iff (FileHeader.decode u.hdr) ((mapOn fs d).mark s)
      hsize
    rw [FileHeader.needed] at hiff
    cases ha : (FileHeader.decode u.hdr).allocate ((mapOn fs d).mark s) initialSize with
    | none =>
      rw [ha] at hiff
      have hlack := mt hiff.mpr Bool.false_ne_true
      refine .inl ⟨fun hr => ?_, ?_⟩
      · have := hr.sectors
        omega
      · simp only [hcreate, FileSystem.createIn, ha]
        rfl
    | some r =>
      obtain ⟨hdr, map⟩ := r
      rw [ha] at hiff
      have hroom := hiff.mp rfl
      refine .inr ⟨⟨hnew, ⟨_, List.getElem_mem hi, hunused⟩, by omega⟩, s, i, hi, hdr, map, hs,
        hfree, hfind, hunused, hsome, ha, hcreate⟩

end Served

namespace Mounted

variable (h : Mounted fs d)

include h

omit h in
theorem used_eq_of (h0 : headerAt d FreeMapSector.toNat = fs.freeMapFile)
    (h1 : headerAt d DirectorySector.toNat = fs.directoryFile) : used d dir =
      [0, 1] ++ fs.freeMapFile.sectors ++ fs.directoryFile.sectors ++ dir.flatMap (owned d) := by
  rw [used, h0, h1]
  rfl

theorem used_eq : used d dir = [0, 1] ++ fs.freeMapFile.sectors ++ fs.directoryFile.sectors ++
    dir.flatMap (owned d) := used_eq_of h.freeMapFile h.directoryFile

theorem nodup : ([0, 1] ++ fs.freeMapFile.sectors ++ fs.directoryFile.sectors ++
    (directoryOn fs d).flatMap (owned d)).Nodup := by
  have hnodup := h.consistent.exact.nodup
  rwa [h.used_eq] at hnodup

theorem sector_lt_of_mem {s : ℕ} (hs : s ∈ [0, 1] ++ fs.freeMapFile.sectors ++
    fs.directoryFile.sectors ++ (directoryOn fs d).flatMap (owned d)) : s < NumSectors := by
  apply h.consistent.exact.range
  rwa [h.used_eq]

theorem placed_map : fs.freeMapFile.Placed := by
  have hvalid := h.consistent.freeMapHeader
  rw [h.freeMapFile] at hvalid
  have hnodup := h.nodup
  simp only [List.nodup_append] at hnodup
  apply hvalid.placed hnodup.1.1.2.1
  intro s hs
  apply h.sector_lt_of_mem
  simp [hs]

theorem placed_directory : fs.directoryFile.Placed := by
  have hvalid := h.consistent.directoryHeader
  rw [h.directoryFile] at hvalid
  have hnodup := h.nodup
  simp only [List.nodup_append] at hnodup
  apply hvalid.placed hnodup.1.2.1
  intro s hs
  apply h.sector_lt_of_mem
  simp [hs]

/-- The sectors of the two files are those of no other. -/
theorem not_mem_files {s : ℕ} (hs : s ∈ [0, 1] ∨ s ∈ (directoryOn fs d).flatMap (owned d)) :
    s ∉ fs.freeMapFile.sectors ∧ s ∉ fs.directoryFile.sectors := by
  have hnodup := h.nodup
  simp only [List.nodup_append] at hnodup
  obtain ⟨⟨⟨-, -, hlow⟩, -, hmid⟩, -, hhigh⟩ := hnodup
  constructor
  · intro hmem
    rcases hs with hs | hs
    · exact hlow s hs s hmem rfl
    · exact hhigh s (List.mem_append_left _ (List.mem_append_right _ hmem)) s hs rfl
  · intro hmem
    rcases hs with hs | hs
    · exact hmid s (List.mem_append_left _ hs) s hmem rfl
    · exact hhigh s (List.mem_append_right _ hmem) s hs rfl

theorem directory_not_mem_map {s : ℕ} (hs : s ∈ fs.directoryFile.sectors) :
    s ∉ fs.freeMapFile.sectors := by
  have hnodup := h.nodup
  simp only [List.nodup_append] at hnodup
  intro hmem
  exact hnodup.1.2.2 s (List.mem_append_right _ hmem) s hs rfl

theorem served : Served fs d where
  placed_map := h.placed_map
  placed_directory := h.placed_directory
  mapSize := h.mapSize
  dirSize := h.dirSize
  apart _ hs := h.directory_not_mem_map hs
  marked s hs := by
    have hmem : s ∈ used d (directoryOn fs d) := by
      rw [h.used_eq]
      rcases hs with hs | hs
      · simp [hs]
      · simp [hs]
    exact (h.consistent.exact.mark s (h.consistent.exact.range s hmem)).mpr hmem

theorem fetchMap : fetchMap fs.freeMapFile d = some (mapOn fs d, d) := h.served.fetchMap

theorem fetchDirectory : Directory.fetchFrom fs.directoryFile d = some (directoryOn fs d, d) :=
  h.served.fetchDirectory

theorem valid_directory : (directoryOn fs d).Valid := h.served.valid_directory

theorem sector_lt (he : e ∈ directoryOn fs d) (hu : e.inUse = true) :
    e.sector.toNat < NumSectors := by
  apply h.sector_lt_of_mem
  apply List.mem_append_right
  exact owned_subset he (by simp [owned, hu])

/-- A sector that the bitmap has as free is not in use. -/
theorem not_used {s : ℕ} (hs : s < NumSectors) (hf : (mapOn fs d).test s = false) :
    s ∉ used d (directoryOn fs d) := by
  intro hmem
  rw [(h.consistent.exact.mark s hs).mpr hmem] at hf
  cases hf

end Mounted

/-! ## One change of the directory -/

/-- Apart from the data of the bitmap and the directory, a sector in use is not written. -/
def Spared (fs : FileSystem) (d d' : Disk) : Prop :=
  ∀ s ∈ used d (directoryOn fs d), s ∉ fs.freeMapFile.sectors → s ∉ fs.directoryFile.sectors →
    d' s = d s

namespace Mounted

theorem low_spared (h : Mounted fs d) (hk : Spared fs d d') {s : ℕ} (hs : s ∈ [0, 1]) :
    d' s = d s := by
  obtain ⟨hmap, hdir⟩ := h.not_mem_files (.inl hs)
  refine hk s ?_ hmap hdir
  rw [h.used_eq]
  exact List.mem_append_left _ (List.mem_append_left _ (List.mem_append_left _ hs))

/-- The files in the directory are as they were. -/
theorem owned_spared (h : Mounted fs d) (hk : Spared fs d d') (he : e ∈ directoryOn fs d) {s : ℕ}
    (hs : s ∈ owned d e) : d' s = d s := by
  have hmem := owned_subset he hs
  obtain ⟨hmap, hdir⟩ := h.not_mem_files (.inr hmem)
  refine hk s ?_ hmap hdir
  rw [h.used_eq]
  exact List.mem_append_right _ hmem

theorem header_spared (h : Mounted fs d) (hk : Spared fs d d') (he : e ∈ directoryOn fs d)
    (hu : e.inUse = true) : d' e.sector.toNat = d e.sector.toNat :=
  h.owned_spared hk he (by simp [owned, hu])

/-- One entry is changed, and the bitmap with it. -/
theorem change (h : Mounted fs d) (hk : Spared fs d d') {i : ℕ}
    (hi : i < (directoryOn fs d).length) (f : DirectoryEntry → DirectoryEntry)
    (hdir : directoryOn fs d' = (directoryOn fs d).modify i f)
    (hmap : ∀ used', (used' ++ owned d (directoryOn fs d)[i]).Perm
        (used d (directoryOn fs d) ++ owned d' (f (directoryOn fs d)[i])) →
      Ledger.Exact NumSectors (mapOn fs d').test used')
    (hvalid : (f (directoryOn fs d)[i]).inUse = true →
      (headerAt d' (f (directoryOn fs d)[i]).sector.toNat).Valid) : Mounted fs d' := by
  have h0 : headerAt d' FreeMapSector.toNat = fs.freeMapFile := by
    rw [headerAt, h.low_spared hk (by decide)]
    exact h.freeMapFile
  have h1 : headerAt d' DirectorySector.toNat = fs.directoryFile := by
    rw [headerAt, h.low_spared hk (by decide)]
    exact h.directoryFile
  have howned : ∀ e ∈ directoryOn fs d, owned d' e = owned d e := by
    intro e he
    exact owned_congr fun hu => h.header_spared hk he hu
  refine ⟨h0, h1, h.mapSize, h.dirSize, ?_, ?_, ?_, ?_⟩
  · rw [hdir]
    apply hmap
    have hflat : (directoryOn fs d).flatMap (owned d) = (directoryOn fs d).flatMap (owned d') :=
      List.flatMap_congr fun e he => (howned e he).symm
    rw [used_eq_of h0 h1, h.used_eq, hflat, ← howned _ (List.getElem_mem hi)]
    generalize [0, 1] ++ fs.freeMapFile.sectors ++ fs.directoryFile.sectors = low
    rw [List.append_assoc, List.append_assoc]
    exact List.Perm.append_left _ (Ledger.perm_modify f (owned d') hi)
  · rw [h0, ← h.freeMapFile]
    exact h.consistent.freeMapHeader
  · rw [h1, ← h.directoryFile]
    exact h.consistent.directoryHeader
  · intro e he hu
    rw [hdir] at he
    rcases Directory.mem_modify hi he with he | rfl
    · rw [headerAt, h.header_spared hk he hu]
      exact h.consistent.headers e he hu
    · exact hvalid hu

/-- A file has been added, with its header in the free sector `s`. -/
theorem created (h : Mounted fs d) {i : ℕ} (hi : i < (directoryOn fs d).length)
    (hunused : (directoryOn fs d)[i].inUse = false) {s : BitVec 32} (name : List Byte)
    (hvalid : hdr.Valid) (hnodup : (s.toNat :: hdr.sectors).Nodup)
    (hfree : ∀ x ∈ s.toNat :: hdr.sectors, x < NumSectors ∧ (mapOn fs d).test x = false)
    (hheader : headerAt d' s.toNat = hdr) (hk : Spared fs d d')
    (hdir : directoryOn fs d' = (directoryOn fs d).modify i (Directory.added name s))
    (hmap : ∀ j < NumSectors, (mapOn fs d').test j =
      (decide (j ∈ s.toNat :: hdr.sectors) || (mapOn fs d).test j)) : Mounted fs d' := by
  apply h.change hk hi _ hdir
  · intro used' hp
    have hold : owned d (directoryOn fs d)[i] = [] := by simp [owned, hunused]
    have hnew : owned d' (Directory.added name s (directoryOn fs d)[i]) =
        s.toNat :: hdr.sectors := by
      simp [owned, Directory.added, hheader]
    rw [hold, hnew, List.append_nil] at hp
    exact (h.consistent.exact.take hnodup hfree hmap).congr
      (List.perm_append_comm.trans hp.symm) fun _ _ => rfl
  · intro _
    rw [Directory.added, hheader]
    exact hvalid

/-- A file has been removed. -/
theorem removed (h : Mounted fs d) {i : ℕ} (hi : i < (directoryOn fs d).length)
    (hk : Spared fs d d')
    (hdir : directoryOn fs d' = (directoryOn fs d).modify i fun e => { e with inUse := false })
    (hmap : ∀ j < NumSectors, (mapOn fs d').test j =
      (decide (j ∉ owned d (directoryOn fs d)[i]) && (mapOn fs d).test j)) : Mounted fs d' := by
  apply h.change hk hi _ hdir
  · intro used' hp
    have hnew : owned d' { (directoryOn fs d)[i] with inUse := false } = [] := by simp [owned]
    rw [hnew, List.append_nil] at hp
    exact (h.consistent.exact.congr (hp.symm.trans List.perm_append_comm)
      fun _ _ => rfl).release hmap
  · intro hu
    cases hu

/-- Writing the directory leaves the bitmap as it is. -/
theorem mapOn_congr (h : Mounted fs d) {d₁ d₂ : Disk}
    (hd : ∀ s ∉ fs.directoryFile.sectors, d₂ s = d₁ s) : mapOn fs d₂ = mapOn fs d₁ := by
  rw [mapOn, mapOn, FileHeader.bytes_congr]
  intro s hs
  exact hd s fun hmem => h.directory_not_mem_map hmem hs

/-! ## `Create` -/

/-- `Create` when everything worked. -/
theorem createIn_run (h : Mounted fs d) {s : BitVec 32} (hs : s.toNat < NumSectors)
    (hfree : (mapOn fs d).test s.toNat = false) {i : ℕ} (hi : i < (directoryOn fs d).length)
    (hunused : (directoryOn fs d)[i].inUse = false) (name : List Byte) {initialSize : BitVec 32}
    (hsize : initialSize.toNat ≤ MaxFileSize)
    (ha : (FileHeader.decode u.hdr).allocate ((mapOn fs d).mark s.toNat) initialSize =
      some (hdr, map)) :
    ∃ d', fs.createIn u ((directoryOn fs d).modify i (Directory.added name s))
        ((mapOn fs d).mark s.toNat) s initialSize d = some (true, d') ∧ Mounted fs d' ∧
      Spared fs d d' ∧ headerAt d' s.toNat = hdr ∧
      directoryOn fs d' = (directoryOn fs d).modify i (Directory.added name s) := by
  have hnum : ((mapOn fs d).mark s.toNat).numBits = NumSectors := rfl
  obtain ⟨hvalid, hnodup, hmem, hbits, htest⟩ := FileHeader.allocate_spec
    (FileHeader.length_dataSectors_decode u.hdr) hsize hnum ha
  have hadded : Directory.Valid ((directoryOn fs d).modify i (Directory.added name s)) :=
    h.valid_directory.modify hi fun e he => Directory.full_added he
  have hnot := h.not_used hs hfree
  obtain ⟨d₃, hrun, hsector, hdir, hmap₃, hother⟩ :=
    h.served.createIn_run hs hfree hadded ha hbits
  have hheader : headerAt d₃ s.toNat = hdr := by
    rw [headerAt, hsector, sectorOf_eq (FileHeader.length_encode hvalid.length),
      FileHeader.decode_encode hvalid.length]
  have hspared : Spared fs d d₃ := by
    intro x hx hxm hxd
    apply hother x hxm hxd
    rintro rfl
    exact hnot hx
  refine ⟨d₃, hrun, ?_, hspared, hheader, hdir⟩
  apply h.created hi hunused name hvalid _ _ hheader hspared hdir
  · intro j hj
    rw [hmap₃ j hj, htest j, BitMap.test_mark]
    by_cases hjs : j = s.toNat <;> simp [hjs]
  · refine List.nodup_cons.mpr ⟨fun hin => ?_, hnodup⟩
    simpa [BitMap.test_mark] using (hmem _ hin).2
  · intro x hx
    rcases List.mem_cons.mp hx with rfl | hx
    · exact ⟨hs, hfree⟩
    · have := hmem x hx
      simp only [BitMap.test_mark, Bool.or_eq_false_iff] at this
      exact ⟨this.1, this.2.2⟩

theorem find_eq_neg_one_iff (h : Mounted fs d) (name : List Byte) :
    (directoryOn fs d).find name = -1 ↔ ¬(directoryOn fs d).Has name := by
  apply Directory.find_eq_neg_one_iff
  intro e he hu heq
  have hlt := h.sector_lt he hu
  rw [heq] at hlt
  revert hlt
  decide

end Mounted

/-- A file has been created, and nothing else has happened. -/
structure Creation (fs : FileSystem) (d d' : Disk) (name : List Byte) (initialSize : BitVec 32) :
    Prop where
  mounted : Mounted fs d'
  spared : Spared fs d d'
  size : (headerAt d' ((directoryOn fs d').find name).toNat).numBytes = initialSize
  has : (directoryOn fs d').Has name
  find : ∀ name', (directoryOn fs d).Has name' →
    (directoryOn fs d').find name' = (directoryOn fs d).find name'
  entries : ∀ e ∈ directoryOn fs d, e.inUse = true → e ∈ directoryOn fs d'

namespace Mounted

/-- `Create` always comes back, and succeeds exactly if there is room. -/
theorem create_cases (h : Mounted fs d) (u : Uninitialized) (name : List Byte)
    {initialSize : BitVec 32} (hsize : initialSize.toNat ≤ MaxFileSize) :
    (¬HasRoom fs d name initialSize ∧ fs.create u name initialSize d = some (false, d)) ∨
    (HasRoom fs d name initialSize ∧ ∃ d', fs.create u name initialSize d = some (true, d') ∧
      Creation fs d d' name initialSize) := by
  rcases h.served.create_branches u name (FileHeader.small_of_le hsize) with hlack |
    ⟨hroom, s, i, hi, hdr, map, hs, hfree, -, hunused, -, ha, hcreate⟩
  · exact .inl hlack
  have hnot := hroom.new
  have hnat : (BitVec.ofNat 32 s).toNat = s := toNat_sector hs
  obtain ⟨d', hrun, hmounted, hspared, hheader, hdir⟩ := h.createIn_run (u := u)
    (hnat.symm ▸ hs) (hnat.symm ▸ hfree) hi hunused name hsize (hnat.symm ▸ ha)
  rw [hnat] at hrun
  refine .inr ⟨hroom, d', hcreate.trans hrun, hmounted, hspared, ?_, ?_, ?_, ?_⟩
  · rw [hdir, Directory.find_added hi hnot, hheader]
    exact FileHeader.numBytes_allocate ha
  · rw [hdir, ← not_not (a := Directory.Has _ name), ← Directory.findIndex_eq_none_iff,
      Directory.findIndex_added hi hnot]
    exact Option.some_ne_none _
  · intro name' hhas
    rw [hdir]
    exact Directory.find_added_of_has hi hunused hnot hhas
  · intro e he hu
    obtain ⟨k, hk, rfl⟩ := List.getElem_of_mem he
    have hne : i ≠ k := by
      rintro rfl
      simp [hunused] at hu
    rw [hdir, List.mem_iff_getElem]
    exact ⟨k, by rwa [List.length_modify], List.getElem_modify_ne _ _ hne _⟩

/-- `Open` changes nothing. -/
theorem open_spec (h : Mounted fs d) (name : List Byte) : fs.open' name d =
    some (if 0 ≤ ((directoryOn fs d).find name).toInt then
      some (headerAt d ((directoryOn fs d).find name).toNat) else none, d) := by
  rw [FileSystem.open', Command.bind_of_some h.fetchDirectory]
  split
  · rename_i hpos
    have hne : (directoryOn fs d).find name ≠ -1 := by
      intro heq
      rw [heq] at hpos
      revert hpos
      decide
    obtain ⟨i, hi, hu, hsector, -⟩ := Directory.find_ne hne
    rw [hsector, Command.bind_of_some (fetchFrom_spec (h.sector_lt (List.getElem_mem hi) hu))]
    rfl
  · rfl

/-- A sector number is not negative. -/
theorem find_nonneg_iff (h : Mounted fs d) (name : List Byte) :
    0 ≤ ((directoryOn fs d).find name).toInt ↔ (directoryOn fs d).Has name := by
  constructor
  · intro hpos
    by_contra hnot
    rw [(h.find_eq_neg_one_iff name).mpr hnot] at hpos
    revert hpos
    decide
  · intro hhas
    have hne : (directoryOn fs d).find name ≠ -1 := fun heq =>
      (h.find_eq_neg_one_iff name).mp heq hhas
    obtain ⟨i, hi, hu, hsector, -⟩ := Directory.find_ne hne
    have hlt := h.sector_lt (List.getElem_mem hi) hu
    simp only [NumSectors] at hlt
    rw [hsector, Word.toInt_of_lt (by omega)]
    omega

/-! ## `Remove` -/

/-- Every sector of a file that is there can be freed. -/
theorem deallocate (h : Mounted fs d) (he : e ∈ directoryOn fs d) (hu : e.inUse = true) :
    ∃ map, (headerAt d e.sector.toNat).deallocate (mapOn fs d) = some map ∧
      map.numBits = NumSectors ∧ ∀ j, (map.clear e.sector.toNat).test j =
        (decide (j ∉ owned d e) && (mapOn fs d).test j) := by
  have hsub : (owned d e).Sublist (used d (directoryOn fs d)) := by
    rw [h.used_eq]
    exact (List.sublist_flatten_of_mem (List.mem_map_of_mem he)).trans
      (List.sublist_append_right _ _)
  have howned : owned d e = e.sector.toNat :: (headerAt d e.sector.toNat).sectors := if_pos hu
  have hnodup := h.consistent.exact.nodup.sublist hsub
  rw [howned] at hsub hnodup
  have hmarked : ∀ s ∈ (headerAt d e.sector.toNat).dataSectors.take
      (headerAt d e.sector.toNat).numSectors.toInt.toNat,
      s.toNat < (mapOn fs d).numBits ∧ (mapOn fs d).test s.toNat = true := by
    intro s hs
    have hmem := hsub.subset (List.mem_cons_of_mem _ (List.mem_map_of_mem hs))
    have hlt := h.consistent.exact.range _ hmem
    exact ⟨hlt, (h.consistent.exact.mark _ hlt).mpr hmem⟩
  obtain ⟨map, hclear, hbits, htest⟩ :=
    FileHeader.clearAll_spec (List.nodup_cons.mp hnodup).2 hmarked
  refine ⟨map, hclear, hbits, fun j => ?_⟩
  rw [BitMap.test_clear, htest j, howned]
  by_cases hj : j = e.sector.toNat <;> simp [hj, FileHeader.sectors]

/-- `Remove` frees the entry of the name, and its sectors. -/
theorem remove_cases (h : Mounted fs d) (u : Uninitialized) (name : List Byte) :
    (¬(directoryOn fs d).Has name ∧ fs.remove u name d = some (false, d)) ∨
    ∃ i, ∃ hi : i < (directoryOn fs d).length, (directoryOn fs d)[i].inUse = true ∧
      strncmpEq FileNameMaxLen (directoryOn fs d)[i].name name = true ∧
      ∃ d', fs.remove u name d = some (true, d') ∧ Mounted fs d' ∧ Spared fs d d' ∧
        directoryOn fs d' = (directoryOn fs d).modify i fun e => { e with inUse := false } := by
  rw [FileSystem.remove, Command.bind_of_some h.fetchDirectory]
  cases hidx : (directoryOn fs d).findIndex name with
  | none =>
    have hnot := Directory.findIndex_eq_none_iff.mp hidx
    refine .inl ⟨hnot, ?_⟩
    rw [Directory.find_of_not_has hnot]
    rfl
  | some i =>
    obtain ⟨hi, hu, hname⟩ := Directory.findIndex_spec hidx
    have hfind : (directoryOn fs d).find name = (directoryOn fs d)[i].sector := by
      simp [Directory.find, hidx, List.getElem?_eq_getElem hi]
    have hremove : (directoryOn fs d).remove name =
        some ((directoryOn fs d).modify i fun e => { e with inUse := false }) := by
      simp [Directory.remove, hidx]
    have hhas : (directoryOn fs d).find name ≠ -1 := fun heq =>
      (h.find_eq_neg_one_iff name).mp heq (Directory.has_of_findIndex hidx)
    have hmem := List.getElem_mem hi
    have hlt := h.sector_lt hmem hu
    obtain ⟨map, hmap, hbits, htest⟩ := h.deallocate hmem hu
    have hbits' : (map.clear (directoryOn fs d)[i].sector.toNat).numBits = NumSectors := hbits
    have hvalid : Directory.Valid
        ((directoryOn fs d).modify i fun e => { e with inUse := false }) :=
      h.valid_directory.modify hi fun e he => he
    obtain ⟨d₁, hw₁, hmap₁, hother₁⟩ :=
      writeMap_on (d := d) h.placed_map h.mapSize hbits' u.buf'
    obtain ⟨d₂, hw₂, hdir₂, hother₂⟩ := writeDirectory_on (d := d₁) h.placed_directory h.dirSize
      hvalid u.buf
    have hspared : Spared fs d d₂ := fun x _ hxm hxd => by rw [hother₂ x hxd, hother₁ x hxm]
    refine .inr ⟨i, hi, hu, hname, d₂, ?_, h.removed hi hspared hdir₂ ?_, hspared, hdir₂⟩
    · rw [if_neg hhas, hfind, Command.bind_of_some (fetchFrom_spec hlt),
        Command.bind_of_some h.fetchMap, FileSystem.removeIn, hmap]
      show (if _ then _ else _ : Command Disk Bool) d = _
      rw [if_pos (hbits ▸ hlt), hremove]
      exact (Command.bind_of_some hw₁).trans (Command.bind_of_some hw₂)
    · intro j hj
      rw [h.mapOn_congr hother₂, ← htest j]
      exact hmap₁ j hj

/-- `Remove` always comes back. -/
theorem remove_spec (h : Mounted fs d) (u : Uninitialized) (name : List Byte) :
    ∃ ok d', fs.remove u name d = some (ok, d') ∧ Mounted fs d' := by
  rcases h.remove_cases u name with ⟨-, hrun⟩ | ⟨-, -, -, -, d', hrun, hd', -⟩
  · exact ⟨false, d, hrun, h⟩
  · exact ⟨true, d', hrun, hd'⟩

/-! ## The files -/

/-- Each file in the directory has its own sectors. -/
theorem placed (h : Mounted fs d) (he : e ∈ directoryOn fs d) (hu : e.inUse = true) :
    (headerAt d e.sector.toNat).Placed := by
  have howned : owned d e = e.sector.toNat :: (headerAt d e.sector.toNat).sectors := if_pos hu
  have hnodup := (List.nodup_flatMap.mp (List.nodup_append.mp h.nodup).2.1).1 e he
  rw [howned, List.nodup_cons] at hnodup
  refine (h.consistent.headers e he hu).placed hnodup.2 fun s hs => ?_
  apply h.sector_lt_of_mem
  apply List.mem_append_right
  apply owned_subset he
  rw [howned]
  exact List.mem_cons_of_mem _ hs

/-- No two files have a sector in common. -/
theorem owned_disjoint (h : Mounted fs d) {e' : DirectoryEntry} (he : e ∈ directoryOn fs d)
    (he' : e' ∈ directoryOn fs d) (hne : e ≠ e') : List.Disjoint (owned d e) (owned d e') := by
  have hpairs := (List.nodup_flatMap.mp (List.nodup_append.mp h.nodup).2.1).2
  have : Std.Symm (Function.onFun List.Disjoint (owned d)) := ⟨fun _ _ hd => hd.symm⟩
  exact hpairs.forall he he' hne

/-- What is written into a file is seen in this file only. -/
theorem written (h : Mounted fs d) (he : e ∈ directoryOn fs d) (hu : e.inUse = true)
    (hother : ∀ s ∉ (headerAt d e.sector.toNat).sectors, d' s = d s) :
    Mounted fs d' ∧ directoryOn fs d' = directoryOn fs d ∧
      (∀ e' ∈ directoryOn fs d, e'.inUse = true → d' e'.sector.toNat = d e'.sector.toNat) ∧
      ∀ e' ∈ directoryOn fs d, e' ≠ e → ∀ s ∈ owned d e', d' s = d s := by
  have howned : owned d e = e.sector.toNat :: (headerAt d e.sector.toNat).sectors := if_pos hu
  have hsub : ∀ s ∈ (headerAt d e.sector.toNat).sectors, s ∈ owned d e := by
    intro s hs
    rw [howned]
    exact List.mem_cons_of_mem _ hs
  have hlow : ∀ s, s ∈ [0, 1] ++ fs.freeMapFile.sectors ++ fs.directoryFile.sectors →
      d' s = d s := by
    intro s hs
    refine hother s fun hin => ?_
    exact (List.nodup_append.mp h.nodup).2.2 s hs s (owned_subset he (hsub s hin)) rfl
  have hothers : ∀ e' ∈ directoryOn fs d, e' ≠ e → ∀ s ∈ owned d e', d' s = d s := by
    intro e' he' hne s hs
    exact hother s fun hin => h.owned_disjoint he he' hne.symm (hsub s hin) hs
  have hheader : ∀ e' ∈ directoryOn fs d, e'.inUse = true →
      d' e'.sector.toNat = d e'.sector.toNat := by
    intro e' he' hu'
    by_cases heq : e' = e
    · subst heq
      have hnodup := (List.nodup_flatMap.mp (List.nodup_append.mp h.nodup).2.1).1 e' he'
      rw [howned, List.nodup_cons] at hnodup
      exact hother _ hnodup.1
    · exact hothers e' he' heq _ (by simp [owned, hu'])
  have h0 : headerAt d' FreeMapSector.toNat = fs.freeMapFile := by
    rw [headerAt, hlow _ (by simp [FreeMapSector])]
    exact h.freeMapFile
  have h1 : headerAt d' DirectorySector.toNat = fs.directoryFile := by
    rw [headerAt, hlow _ (by simp [DirectorySector])]
    exact h.directoryFile
  have hmap : mapOn fs d' = mapOn fs d := by
    rw [mapOn, mapOn, FileHeader.bytes_congr fun s hs => hlow s (by simp [hs])]
  have hdir : directoryOn fs d' = directoryOn fs d := by
    rw [directoryOn, directoryOn, FileHeader.bytes_congr fun s hs => hlow s (by simp [hs])]
  refine ⟨⟨h0, h1, h.mapSize, h.dirSize, ?_, ?_, ?_, ?_⟩, hdir, hheader, hothers⟩
  · have hflat : (directoryOn fs d).flatMap (owned d') = (directoryOn fs d).flatMap (owned d) :=
      List.flatMap_congr fun e' he' => owned_congr (hheader e' he')
    rw [hmap, hdir, used_eq_of h0 h1, hflat, ← h.used_eq]
    exact h.consistent.exact
  · rw [h0, ← h.freeMapFile]
    exact h.consistent.freeMapHeader
  · rw [h1, ← h.directoryFile]
    exact h.consistent.directoryHeader
  · intro e' he' hu'
    rw [hdir] at he'
    rw [headerAt, hheader e' he' hu']
    exact h.consistent.headers e' he' hu'

/-- Every sector is free or counted. -/
theorem numClear_add (h : Mounted fs d) :
    (mapOn fs d).numClear + (used d (directoryOn fs d)).length = NumSectors := by
  have hmarked : (mapOn fs d).marked = (used d (directoryOn fs d)).toFinset := by
    ext s
    rw [BitMap.mem_marked, List.mem_toFinset]
    constructor
    · rintro ⟨hs, ht⟩
      exact (h.consistent.exact.mark s hs).mp ht
    · intro hs
      have hlt := h.consistent.exact.range s hs
      exact ⟨hlt, (h.consistent.exact.mark s hlt).mpr hs⟩
  have hcard := BitMap.card_marked_add_numClear (mapOn fs d)
  rw [hmarked, List.toFinset_card_of_nodup h.consistent.exact.nodup] at hcard
  rw [Nat.add_comm]
  exact hcard

end Mounted

end Nachos.Filesys
