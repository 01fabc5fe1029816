import Nachos.Filesys.Mounted

/-!
# Consistency of the file system

The bitmap on disk marks exactly the sectors that the headers and the directory name, each
of them once. This holds from formatting on, whatever is created and removed.
-/
namespace Nachos.Filesys

open Bytes (Byte)

variable {d d' : Disk} {fs : FileSystem} {u : Uninitialized} {dir : Directory} {map : BitMap}
  {e : DirectoryEntry}

/-- The two files of the file system are where formatting has put them. -/
structure Files (fs : FileSystem) (d : Disk) : Prop where
  freeMapFile : headerAt d 0 = fs.freeMapFile
  directoryFile : headerAt d 1 = fs.directoryFile
  map : fs.freeMapFile.Small 2 128
  dir : fs.directoryFile.Small 3 200
  mapSectors : fs.freeMapFile.sectors = [2]
  dirSectors : fs.directoryFile.sectors = [3]

def storedMap (d : Disk) : BitMap := .ofBytes NumSectors ((d 2).1.take 128)

def storedDirectory (d : Disk) : Directory := .decode ((d 3).1.take 200)

/-- Writing the bitmap back. -/
theorem writeMap_spec {file : FileHeader} (hf : file.Small 2 128) (hb : map.numBits = NumSectors)
    (old : List Byte) : ∃ s : Sector, writeMap map file old d = some (128, Function.update d 2 s) ∧
      ∀ i < NumSectors, (storedMap (Function.update d 2 s)).test i = map.test i := by
  have hwords : map.numWords = 32 := by rw [BitMap.numWords, hb]; rfl
  have hlen : map.bytes.length = 128 := by rw [BitMap.length_bytes, hwords]
  obtain ⟨s, hs, hw⟩ := hf.writeAt (d := d) hlen old
  refine ⟨s, ?_, fun i hi => ?_⟩
  · rw [writeMap, hwords]
    exact hw
  · have htest : (BitMap.ofBytes map.numBits (map.bytes ++ [])).test i = map.test i :=
      BitMap.test_ofBytes (hb ▸ hi)
    rw [List.append_nil, hb] at htest
    simpa [storedMap, hs] using htest

/-- Writing the directory back. -/
theorem writeDirectory_spec {file : FileHeader} (hf : file.Small 3 200) (hd : dir.Valid)
    (old : List Byte) : ∃ s : Sector, dir.writeBack file old d = some (200, Function.update d 3 s) ∧
      storedDirectory (Function.update d 3 s) = dir := by
  have hlen : dir.encode.length = 200 := by
    rw [Directory.length_encode hd.full, hd.length]
    rfl
  obtain ⟨s, hs, hw⟩ := hf.writeAt (d := d) hlen old
  refine ⟨s, hw, ?_⟩
  simp [storedDirectory, hs, Directory.decode_encode hd]

theorem FileHeader.Small.bytes {hdr : FileHeader} {sector n : ℕ} (hs : hdr.Small sector n)
    (hsectors : hdr.sectors = [sector]) : hdr.bytes d = (d sector).1.take n := by
  have hsize : hdr.numBytes.toNat = n := by
    have hint := hs.numBytes
    rw [← Word.toNat_toInt (by omega), hint, Int.toNat_natCast]
  rw [FileHeader.bytes, hsectors, hsize, List.flatMap_singleton]

theorem Files.used_eq (h : Files fs d) : used d dir = [0, 1, 2, 3] ++ dir.flatMap (owned d) := by
  have h0 : headerAt d FreeMapSector.toNat = fs.freeMapFile := h.freeMapFile
  have h1 : headerAt d DirectorySector.toNat = fs.directoryFile := h.directoryFile
  rw [used, h0, h1, h.mapSectors, h.dirSectors]
  rfl

theorem Files.mapOn_eq (h : Files fs d) : mapOn fs d = storedMap d := by
  rw [mapOn, h.map.bytes h.mapSectors, storedMap]

theorem Files.directoryOn_eq (h : Files fs d) : directoryOn fs d = storedDirectory d := by
  rw [directoryOn, h.dir.bytes h.dirSectors, storedDirectory]

/-- The disk is consistent, and the open files are those on it. -/
structure Sound (fs : FileSystem) (d : Disk) : Prop where
  files : Files fs d
  consistent : Consistent d (storedMap d) (storedDirectory d)

theorem Sound.mounted (h : Sound fs d) : Mounted fs d where
  freeMapFile := h.files.freeMapFile
  directoryFile := h.files.directoryFile
  mapSize := BitVec.eq_of_toInt_eq h.files.map.numBytes
  dirSize := BitVec.eq_of_toInt_eq h.files.dir.numBytes
  consistent := by
    rw [h.files.mapOn_eq, h.files.directoryOn_eq]
    exact h.consistent

/-- The files of the file system do not move. -/
theorem Sound.of_mounted (h : Sound fs d) (h' : Mounted fs d') : Sound fs d' := by
  have hfiles : Files fs d' :=
    { h.files with freeMapFile := h'.freeMapFile, directoryFile := h'.directoryFile }
  refine ⟨hfiles, ?_⟩
  rw [← hfiles.mapOn_eq, ← hfiles.directoryOn_eq]
  exact h'.consistent

theorem Sound.fetchMap (h : Sound fs d) : fetchMap fs.freeMapFile d = some (storedMap d, d) := by
  rw [h.mounted.fetchMap, h.files.mapOn_eq]

theorem Sound.fetchDirectory (h : Sound fs d) :
    Directory.fetchFrom fs.directoryFile d = some (storedDirectory d, d) := by
  rw [h.mounted.fetchDirectory, h.files.directoryOn_eq]

/-! ## The calls -/

/-- What `Create` needs for a file without data: a new name, a free entry and a free sector. -/
structure Creatable (d : Disk) (name : List Byte) : Prop where
  new : (storedDirectory d).find name = -1
  sector : (storedMap d).find.1 ≠ -1
  entry : ∃ e ∈ storedDirectory d, e.inUse = false

theorem Sound.hasRoom_iff (h : Sound fs d) (name : List Byte) :
    HasRoom fs d name 0 ↔ Creatable d name := by
  have hnew := h.mounted.find_eq_neg_one_iff name
  have hsector := BitMap.find_eq_neg_one_iff (mapOn fs d)
  rw [h.files.directoryOn_eq] at hnew
  rw [h.files.mapOn_eq] at hsector
  have hzero : ((0 : BitVec 32).toNat + (SectorSize - 1)) / SectorSize = 0 := by decide
  constructor
  · rintro ⟨h1, h2, h3⟩
    rw [h.files.directoryOn_eq] at h1 h2
    rw [h.files.mapOn_eq, hzero] at h3
    exact ⟨hnew.mpr h1, fun hfind => by have := hsector.mp hfind; omega, h2⟩
  · rintro ⟨h1, h2, h3⟩
    have hpos := mt hsector.mpr h2
    refine ⟨?_, ?_, ?_⟩
    · rw [h.files.directoryOn_eq]
      exact hnew.mp h1
    · rw [h.files.directoryOn_eq]
      exact h3
    · rw [h.files.mapOn_eq, hzero]
      omega

/-- `Create` always comes back. -/
theorem create_spec (h : Sound fs d) (name : List Byte) (initialSize : BitVec 32)
    (hsize : initialSize.toNat ≤ MaxFileSize) :
    ∃ ok d', fs.create u name initialSize d = some (ok, d') ∧ Sound fs d' ∧
      (ok = false → d' = d) ∧ (initialSize = 0 → (ok = true ↔ Creatable d name)) := by
  rcases h.mounted.create_cases u name hsize with ⟨hlack, hrun⟩ | ⟨hroom, d', hrun, hcreation⟩
  · refine ⟨false, d, hrun, h, fun _ => rfl, ?_⟩
    rintro rfl
    exact iff_of_false Bool.false_ne_true (mt (h.hasRoom_iff name).mpr hlack)
  · refine ⟨true, d', hrun, h.of_mounted hcreation.mounted, nofun, ?_⟩
    rintro rfl
    exact iff_of_true rfl ((h.hasRoom_iff name).mp hroom)

/-- So does `Remove`. -/
theorem remove_spec (h : Sound fs d) (name : List Byte) :
    ∃ ok d', fs.remove u name d = some (ok, d') ∧ Sound fs d' := by
  obtain ⟨ok, d', hrun, hd'⟩ := h.mounted.remove_spec u name
  exact ⟨ok, d', hrun, h.of_mounted hd'⟩

/-- `Open` changes nothing. -/
theorem open_spec (h : Sound fs d) (name : List Byte) :
    fs.open' name d = some (if 0 ≤ ((storedDirectory d).find name).toInt then
      some (headerAt d ((storedDirectory d).find name).toNat) else none, d) := by
  rw [h.mounted.open_spec, h.files.directoryOn_eq]

/-! ## Formatting -/

theorem valid_newDirectory (u : Uninitialized) : (FileSystem.newDirectory u).Valid := by
  have hvalid : Directory.Valid (Directory.decode ((u.table ++
      List.replicate (entrySize * NumDirEntries) 0).take (entrySize * NumDirEntries))) :=
    Directory.valid_decode (by simp)
  refine ⟨by rw [FileSystem.newDirectory, List.length_map, hvalid.length], fun e he => ?_⟩
  obtain ⟨e', he', rfl⟩ := List.mem_map.mp he
  exact hvalid.full e' he'

theorem newDirectory_unused (he : e ∈ FileSystem.newDirectory u) : e.inUse = false := by
  obtain ⟨e', -, rfl⟩ := List.mem_map.mp he
  rfl

/-- A map in which the first `n` sectors are taken. -/
def takenBelow (n : ℕ) : BitMap := (List.range n).foldl BitMap.mark (BitMap.ofSize NumSectors)

theorem takenBelow_succ (n : ℕ) : takenBelow (n + 1) = (takenBelow n).mark n := by
  rw [takenBelow, List.range_succ, List.foldl_append]
  rfl

theorem takenBelow_spec (n : ℕ) : (takenBelow n).numBits = NumSectors ∧
    ∀ j, (takenBelow n).test j = decide (j < n) := by
  induction n with
  | zero => exact ⟨rfl, fun j => by simp [takenBelow]⟩
  | succ n ih =>
    rw [takenBelow_succ]
    refine ⟨ih.1, fun j => ?_⟩
    rw [BitMap.test_mark, ih.2 j, ← Bool.decide_or]
    exact decide_eq_decide.mpr (by omega)

/-- A file of one sector, when the first `n` sectors are taken. -/
theorem allocate_takenBelow (n : ℕ) (hn : n < NumSectors) (fileSize : BitVec 32)
    (h0 : 0 < fileSize.toNat) (h1 : fileSize.toNat ≤ SectorSize) (bs : List Byte) :
    ∃ h, (FileHeader.decode bs).allocate (takenBelow n) fileSize =
      some (h, takenBelow (n + 1)) ∧ h.Valid ∧ h.sectors = [n] ∧ h.Small n fileSize.toNat := by
  obtain ⟨hbits, htest⟩ := takenBelow_spec n
  obtain ⟨h, ha, hsize, hvalid, hsectors, hfirst⟩ := FileHeader.allocate_first
    (FileHeader.length_dataSectors_decode bs) h0 h1 hbits hn (by simp [htest])
    (fun j hj => by simpa [htest] using hj)
  refine ⟨h, by rw [takenBelow_succ, ha], hvalid, hsectors, ⟨?_, h0, h1, hfirst, hn⟩⟩
  rw [hsize]
  exact Word.toInt_of_lt (by simp only [SectorSize] at h1; omega)

/-- The sectors of an empty directory, when its file and the bitmap are in place. -/
theorem Files.used_newDirectory (h : Files fs d) :
    used d (FileSystem.newDirectory u) = [0, 1, 2, 3] := by
  have hempty : (FileSystem.newDirectory u).flatMap (owned d) = [] := by
    refine List.flatMap_eq_nil_iff.mpr fun e he => ?_
    simp [owned, newDirectory_unused he]
  rw [h.used_eq, hempty, List.append_nil]

/-- The headers of the two files are flushed. -/
theorem writeHeaders_spec {mapHdr dirHdr : FileHeader} (hm : mapHdr.Valid) (hd : dirHdr.Valid)
    (d : Disk) : ∃ d₁ d₂, mapHdr.writeBack FreeMapSector d = some ((), d₁) ∧
      dirHdr.writeBack DirectorySector d₁ = some ((), d₂) ∧
      headerAt d₂ 0 = mapHdr ∧ headerAt d₂ 1 = dirHdr := by
  refine ⟨_, _, writeBack_spec (by decide), writeBack_spec (by decide), ?_, ?_⟩
  · rw [headerAt, Function.update_of_ne (by decide)]
    exact headerAt_update hm 0
  · exact headerAt_update hd 1

/-- A new file system is consistent and empty, whatever was on the disk. -/
theorem format_new (u : Uninitialized) (d : Disk) :
    ∃ fs d', FileSystem.format u d = some (fs, d') ∧ Sound fs d' ∧
      (∀ e ∈ storedDirectory d', e.inUse = false) ∧
      ∀ i < NumSectors, (storedMap d').test i = decide (i < 4) := by
  obtain ⟨mapHdr, hmap, hmapValid, hmapSectors, hmapSmall⟩ :=
    allocate_takenBelow 2 (by decide) FreeMapFileSize (by decide) (by decide) u.hdr
  obtain ⟨dirHdr, hdir, hdirValid, hdirSectors, hdirSmall⟩ :=
    allocate_takenBelow 3 (by decide) DirectoryFileSize (by decide) (by decide) u.hdr'
  obtain ⟨d₁, d₂, hw₀, hw₁, hmapHdr, hdirHdr⟩ := writeHeaders_spec hmapValid hdirValid d
  have hopen₀ : FileHeader.fetchFrom FreeMapSector d₂ = some (mapHdr, d₂) := by
    rw [fetchFrom_spec (by decide), ← hmapHdr]
    rfl
  have hopen₁ : FileHeader.fetchFrom DirectorySector d₂ = some (dirHdr, d₂) := by
    rw [fetchFrom_spec (by decide), ← hdirHdr]
    rfl
  obtain ⟨s₂, hw₂, hmap₂⟩ := writeMap_spec (d := d₂) hmapSmall (takenBelow_spec 4).1 u.buf
  obtain ⟨s₃, hw₃, hdir₃⟩ := writeDirectory_spec (d := Function.update d₂ 2 s₂) hdirSmall
    (valid_newDirectory u) u.buf'
  have hfiles : Files ⟨mapHdr, dirHdr⟩ (Function.update (Function.update d₂ 2 s₂) 3 s₃) :=
    ⟨hmapHdr, hdirHdr, hmapSmall, hdirSmall, hmapSectors, hdirSectors⟩
  have htest : ∀ i < NumSectors,
      (storedMap (Function.update (Function.update d₂ 2 s₂) 3 s₃)).test i = decide (i < 4) := by
    intro i hi
    have : (storedMap (Function.update (Function.update d₂ 2 s₂) 3 s₃)).test i =
      (takenBelow 4).test i := hmap₂ i hi
    rw [this, (takenBelow_spec 4).2 i]
  refine ⟨⟨mapHdr, dirHdr⟩, Function.update (Function.update d₂ 2 s₂) 3 s₃, ?_, ⟨hfiles,
    ⟨?_, ?_, ?_, ?_⟩⟩, ?_, htest⟩
  · rw [FileSystem.format_eq hmap hdir, FileSystem.formatWith, Command.bind_of_some hw₀,
      Command.bind_of_some hw₁, Command.bind_of_some hopen₀, Command.bind_of_some hopen₁, Command.bind_of_some hw₂,
      Command.bind_of_some hw₃]
    rfl
  · rw [hdir₃, hfiles.used_newDirectory]
    refine ⟨by decide, by decide, fun i hi => ?_⟩
    rw [htest i hi, decide_eq_true_eq]
    simp only [List.mem_cons, List.not_mem_nil, or_false]
    omega
  · exact hfiles.freeMapFile ▸ hmapValid
  · exact hfiles.directoryFile ▸ hdirValid
  · intro e he hu
    rw [hdir₃] at he
    rw [newDirectory_unused he] at hu
    cases hu
  · intro e he
    rw [hdir₃] at he
    exact newDirectory_unused he

/-- It has room for a file of any name, with up to 1019 sectors. -/
theorem format_room (u : Uninitialized) (d : Disk) :
    ∃ fs d', FileSystem.format u d = some (fs, d') ∧ Sound fs d' ∧
      ∀ (name : List Byte) (initialSize : BitVec 32),
        1 + (initialSize.toNat + (SectorSize - 1)) / SectorSize ≤ 1020 →
          HasRoom fs d' name initialSize := by
  obtain ⟨fs, d', hformat, hsound, hempty, htest⟩ := format_new u d
  have hclear : (storedMap d').numClear = 1020 := by
    have hcount : (storedMap d').numClear = (List.range NumSectors).countP fun i => !decide (i < 4) := by
      apply List.countP_congr
      intro i hi
      rw [htest i (List.mem_range.mp hi)]
    rw [hcount]
    decide +kernel
  have hlength := hsound.mounted.valid_directory.length
  rw [hsound.files.directoryOn_eq] at hlength
  have hpos : 0 < (storedDirectory d').length := by
    rw [hlength]
    decide
  refine ⟨fs, d', hformat, hsound, fun name initialSize hsize => ⟨?_, ?_, ?_⟩⟩
  · rw [hsound.files.directoryOn_eq]
    rintro ⟨e, he, hu, -⟩
    rw [hempty e he] at hu
    cases hu
  · rw [hsound.files.directoryOn_eq]
    exact ⟨_, List.getElem_mem hpos, hempty _ (List.getElem_mem hpos)⟩
  · rw [hsound.files.mapOn_eq, hclear]
    exact hsize

theorem format_spec (u : Uninitialized) (d : Disk) :
    ∃ fs d', FileSystem.format u d = some (fs, d') ∧ Sound fs d' := by
  obtain ⟨fs, d', hformat, hsound, -⟩ := format_new u d
  exact ⟨fs, d', hformat, hsound⟩

/-- `FileSystem(TRUE)` always comes back. -/
theorem construct_spec (u stdin stdout : Uninitialized) (d : Disk) :
    ∃ fs d', FileSystem.construct u stdin stdout d = some (fs, d') ∧ Sound fs d' := by
  obtain ⟨fs, d₀, hformat, h₀⟩ := format_spec u d
  have hin := open_spec h₀ (FileSystem.chars "stdin")
  have hout := open_spec h₀ (FileSystem.chars "stdout")
  obtain ⟨ok, d₁, hstdin, h₁, -⟩ := create_spec (u := stdin) h₀ (FileSystem.chars "stdin") 0 (by decide)
  obtain ⟨ok', d₂, hstdout, h₂, -⟩ := create_spec (u := stdout) h₁ (FileSystem.chars "stdout") 0
    (by decide)
  refine ⟨fs, d₂, ?_, h₂⟩
  rw [FileSystem.construct, Command.bind_of_some hformat, Command.bind_of_some hin,
    Command.bind_of_some hout, Command.bind_of_some hstdin, Command.bind_of_some hstdout]
  rfl

/-- One call. -/
theorem Call.run_spec {c : Call} (h : Sound fs d) (hc : c.Sized) :
    ∃ ok d', c.run fs d = some (ok, d') ∧ Sound fs d' := by
  cases c with
  | create u name initialSize =>
    obtain ⟨h0, h1⟩ := hc
    have hlt := BitVec.toInt_pos_iff.mp h0
    rw [Word.toInt_of_lt (by omega)] at h1
    obtain ⟨ok, d', hrun, hd', -⟩ := create_spec (u := u) h name initialSize (by exact_mod_cast h1)
    exact ⟨ok, d', hrun, hd'⟩
  | remove u name => exact remove_spec h name

/-- Any number of calls. -/
theorem Call.runAll_spec (h : Sound fs d) {cs : List Call} (hc : ∀ c ∈ cs, c.Sized) :
    ∃ answers d', Call.runAll fs cs d = some (answers, d') ∧ Sound fs d' := by
  induction cs generalizing d with
  | nil => exact ⟨[], d, rfl, h⟩
  | cons c cs ih =>
    obtain ⟨ok, d₁, hrun, h₁⟩ := Call.run_spec h (hc c List.mem_cons_self)
    obtain ⟨answers, d₂, hall, h₂⟩ := ih h₁ fun c' hc' => hc c' (List.mem_cons_of_mem c hc')
    refine ⟨ok :: answers, d₂, ?_, h₂⟩
    rw [Call.runAll, Command.bind_of_some hrun, Command.bind_of_some hall]
    rfl

end Nachos.Filesys

namespace Nachos

open Filesys

/-- From a formatted disk on, whatever was on it before, no call of `Create` or `Remove` fails
an assertion, and after each the bitmap on disk marks exactly the sectors in use. -/
theorem filesys_consistent (u stdin stdout : Uninitialized) (d₀ : Disk) (cs : List Call)
    (hc : ∀ c ∈ cs, c.Sized) : ∃ fs d answers d' map dir,
      FileSystem.construct u stdin stdout d₀ = some (fs, d) ∧
      Call.runAll fs cs d = some (answers, d') ∧
      fs.freeMapFile = headerAt d' FreeMapSector.toNat ∧
      fs.directoryFile = headerAt d' DirectorySector.toNat ∧
      fetchMap fs.freeMapFile d' = some (map, d') ∧
      Directory.fetchFrom fs.directoryFile d' = some (dir, d') ∧
      Consistent d' map dir := by
  obtain ⟨fs, d, hconstruct, hd⟩ := construct_spec u stdin stdout d₀
  obtain ⟨answers, d', hrun, h⟩ := Call.runAll_spec hd hc
  exact ⟨fs, d, answers, d', storedMap d', storedDirectory d', hconstruct, hrun,
    h.files.freeMapFile.symm, h.files.directoryFile.symm, h.fetchMap, h.fetchDirectory,
    h.consistent⟩

def noMemory : Uninitialized := ⟨[], [], [], [], []⟩

/-- A file of two sectors comes and goes. -/
def oneFile : List Call :=
  [.create noMemory (FileSystem.chars "a") 1000, .remove noMemory (FileSystem.chars "a")]

theorem filesys_consistent_oneFile : (∀ c ∈ oneFile, c.Sized) ∧ ∃ fs d answers d' map dir,
    FileSystem.construct noMemory noMemory noMemory (fun _ => sectorOf []) = some (fs, d) ∧
    Call.runAll fs oneFile d = some (answers, d') ∧
    fetchMap fs.freeMapFile d' = some (map, d') ∧
    Directory.fetchFrom fs.directoryFile d' = some (dir, d') ∧ Consistent d' map dir := by
  have hsized : ∀ c ∈ oneFile, c.Sized := by
    intro c hc
    simp only [oneFile, List.mem_cons, List.not_mem_nil, or_false] at hc
    rcases hc with rfl | rfl
    · exact ⟨by decide, by decide⟩
    · trivial
  obtain ⟨fs, d, answers, d', map, dir, h₁, h₂, -, -, h₃, h₄, h⟩ :=
    filesys_consistent noMemory noMemory noMemory (fun _ => sectorOf []) oneFile hsized
  exact ⟨hsized, fs, d, answers, d', map, dir, h₁, h₂, h₃, h₄, h⟩

/-- `Create` succeeds exactly if the name is new, an entry is unused and there is space for header
and data. If it fails the disk is as it was. If not, the new file has the size asked for, and the
header and the data of every other file are as they were. -/
theorem create_exact {fs : FileSystem} {d : Disk} (h : Mounted fs d) (u : Uninitialized)
    (name : List Bytes.Byte) {initialSize : BitVec 32} (h0 : 0 ≤ initialSize.toInt)
    (hmax : initialSize.toInt ≤ MaxFileSize) :
    ∃ ok d', fs.create u name initialSize d = some (ok, d') ∧
      (ok = true ↔
        (¬∃ e ∈ directoryOn fs d, e.inUse = true ∧ strncmpEq FileNameMaxLen e.name name = true) ∧
        (∃ e ∈ directoryOn fs d, e.inUse = false) ∧
        1 + (initialSize.toNat + (SectorSize - 1)) / SectorSize ≤ (mapOn fs d).numClear) ∧
      (ok = false → d' = d) ∧
      (ok = true → Mounted fs d' ∧
        (∃ hdr, fs.open' name d' = some (some hdr, d') ∧ hdr.numBytes = initialSize) ∧
        (∀ name' hdr, fs.open' name' d = some (some hdr, d) →
          fs.open' name' d' = some (some hdr, d')) ∧
        ∀ e ∈ directoryOn fs d, e.inUse = true → e ∈ directoryOn fs d' ∧
          headerAt d' e.sector.toNat = headerAt d e.sector.toNat ∧
          (headerAt d e.sector.toNat).bytes d' = (headerAt d e.sector.toNat).bytes d) := by
  have hsize : initialSize.toNat ≤ MaxFileSize := by
    have hint := (Word.toNat_of_nonneg h0).1
    omega
  rcases h.create_cases u name hsize with ⟨hlack, hrun⟩ | ⟨hroom, d', hrun, hc⟩
  · refine ⟨false, d, hrun, iff_of_false Bool.false_ne_true ?_, fun _ => rfl, nofun⟩
    rintro ⟨hnew, hentry, hsectors⟩
    exact hlack ⟨hnew, hentry, hsectors⟩
  · refine ⟨true, d', hrun, iff_of_true rfl ⟨hroom.new, hroom.entry, hroom.sectors⟩, nofun,
      fun _ => ⟨hc.mounted, ?_, ?_, ?_⟩⟩
    · refine ⟨_, ?_, hc.size⟩
      rw [hc.mounted.open_spec, if_pos ((hc.mounted.find_nonneg_iff name).mpr hc.has)]
    · intro name' hdr hopen
      rw [h.open_spec] at hopen
      split at hopen
      · rename_i hpos
        simp only [Option.some.injEq, Prod.mk.injEq, and_true] at hopen
        have hhas := (h.find_nonneg_iff name').mp hpos
        have hne : (directoryOn fs d).find name' ≠ -1 := fun heq =>
          (h.find_eq_neg_one_iff name').mp heq hhas
        obtain ⟨i, hi, hu, hsector, -⟩ := Directory.find_ne hne
        rw [hc.mounted.open_spec, hc.find name' hhas, if_pos hpos, ← hopen, hsector, headerAt,
          headerAt, h.header_spared hc.spared (List.getElem_mem hi) hu]
      · cases hopen
    · intro e he hu
      have howned : owned d e = e.sector.toNat :: (headerAt d e.sector.toNat).sectors := if_pos hu
      refine ⟨hc.entries e he hu, ?_, ?_⟩
      · rw [headerAt, headerAt, h.header_spared hc.spared he hu]
      · apply FileHeader.bytes_congr
        intro s hs
        apply h.owned_spared hc.spared he
        rw [howned]
        exact List.mem_cons_of_mem _ hs

/-- On a new disk a file of two sectors can be created. -/
theorem create_exact_new : ∃ fs d d' hdr,
    FileSystem.format noMemory (fun _ => sectorOf []) = some (fs, d) ∧
    fs.create noMemory (FileSystem.chars "a") 1000 d = some (true, d') ∧ Mounted fs d' ∧
    fs.open' (FileSystem.chars "a") d' = some (some hdr, d') ∧ hdr.numBytes = 1000 := by
  obtain ⟨fs, d, hformat, hsound, hroom⟩ := format_room noMemory fun _ => sectorOf []
  obtain ⟨hnew, hentry, hsectors⟩ := hroom (FileSystem.chars "a") 1000 (by decide)
  obtain ⟨ok, d', hrun, hiff, -, hok⟩ := create_exact hsound.mounted noMemory
    (FileSystem.chars "a") (show 0 ≤ (1000 : BitVec 32).toInt by decide) (by decide)
  have htrue : ok = true := hiff.mpr ⟨hnew, hentry, hsectors⟩
  subst htrue
  obtain ⟨hmounted, ⟨hdr, hopen, hsize⟩, -⟩ := hok rfl
  exact ⟨fs, d, d', hdr, hformat, hrun, hmounted, hopen, hsize⟩

end Nachos
